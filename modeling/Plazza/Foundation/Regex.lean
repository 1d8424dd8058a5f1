import Mathlib.Computability.Language

namespace Plazza.Foundation

open scoped Computability

/-- A regular expression in the ECMAScript grammar without references and lookaheads. -/
inductive Regex (Letter : Type) where
  | empty
  | bol
  | eol
  | set (accepts : Letter → Bool)
  | seq (first second : Regex Letter)
  | alt (first second : Regex Letter)
  | star (greedy : Bool) (body : Regex Letter)
  | group (index : Nat) (body : Regex Letter)

namespace Regex

variable {Letter : Type}

/-- A find has the matched text, the rest of the input and the text of each group. -/
@[ext]
structure Found (Letter : Type) where
  text : List Letter
  rest : List Letter
  captures : List (Nat × List Letter)

namespace Found

/-- The find of a sequence has the groups of both parts. -/
def follow (first second : Found Letter) : Found Letter :=
  ⟨first.text ++ second.text, second.rest, first.captures ++ second.captures⟩

/-- Each iteration resets the groups of the body, so the last one determines them. -/
def again (first second : Found Letter) : Found Letter :=
  ⟨first.text ++ second.text, second.rest,
    if second.text.isEmpty then first.captures else second.captures⟩

def capture (index : Nat) (found : Found Letter) : Found Letter :=
  { found with captures := (index, found.text) :: found.captures }

end Found

/-- A greedy loop prefers another iteration and a lazy one prefers the end. -/
def arrange (greedy : Bool) (more : List (Found Letter)) (input : List Letter) :
    List (Found Letter) :=
  if greedy then more ++ [⟨[], input, []⟩] else ⟨[], input, []⟩ :: more

/-- An iteration that matches no letter fails, so the length of the input bounds the loop. -/
def iterate (once : Bool → List Letter → List (Found Letter)) (greedy : Bool) :
    Nat → Bool → List Letter → List (Found Letter)
  | 0, _, input => [⟨[], input, []⟩]
  | fuel + 1, atStart, input =>
      arrange greedy ((once atStart input).flatMap fun first =>
        if first.text.isEmpty then []
        else (iterate once greedy fuel false first.rest).map first.again) input

/-- The backtracking matcher tries the finds in this order. -/
def finds : Regex Letter → Bool → List Letter → List (Found Letter)
  | empty, _, input => [⟨[], input, []⟩]
  | bol, atStart, input => if atStart then [⟨[], input, []⟩] else []
  | eol, _, input => if input.isEmpty then [⟨[], input, []⟩] else []
  | set _, _, [] => []
  | set accepts, _, letter :: rest => if accepts letter then [⟨[letter], rest, []⟩] else []
  | seq first second, atStart, input =>
      (finds first atStart input).flatMap fun found =>
        (finds second (atStart && found.text.isEmpty) found.rest).map found.follow
  | alt first second, atStart, input => finds first atStart input ++ finds second atStart input
  | star greedy body, atStart, input => iterate (finds body) greedy input.length atStart input
  | group index body, atStart, input => (finds body atStart input).map (Found.capture index)

/-- A match takes the first find that leaves no input. -/
def regexMatch (regex : Regex Letter) (input : List Letter) : Option (Found Letter) :=
  (finds regex true input).find? fun found => found.rest.isEmpty

/-- A sequence of sets matches one letter of each. -/
def sequence (sets : List (Letter → Bool)) : Regex Letter :=
  sets.foldr (fun accepts rest => seq (set accepts) rest) empty

/-- The text of a group that took no part in the match is empty. -/
def Found.str (found : Found Letter) (index : Nat) : List Letter :=
  (found.captures.lookup index).getD []

/-- A sequence finds the finds of its second part after each find of its first part. -/
theorem mem_finds_seq {first second : Regex Letter} {atStart : Bool} {input : List Letter}
    {found : Found Letter} :
    found ∈ finds (seq first second) atStart input ↔
      ∃ front ∈ finds first atStart input,
        ∃ back ∈ finds second (atStart && front.text.isEmpty) front.rest,
          front.follow back = found := by
  simp only [finds, List.mem_flatMap, List.mem_map]

/-- A regular expression reads a language when it finds exactly the prefixes in the language. -/
def Reads (regex : Regex Letter) (language : Language Letter) : Prop :=
  ∀ (atStart : Bool) (input : List Letter) (found : Found Letter),
    found ∈ finds regex atStart input ↔
      found.text ∈ language ∧ found.text ++ found.rest = input ∧ found.captures = []

/-- What an expression reads depends only on the texts of the language. -/
theorem Reads.congr {regex : Regex Letter} {left right : Language Letter}
    (reads : Reads regex left) (same : ∀ text, text ∈ left ↔ text ∈ right) : Reads regex right := by
  intro atStart input found
  rw [reads, same]

/-- The empty expression reads the empty text. -/
theorem reads_empty : Reads (empty : Regex Letter) 1 := by
  intro atStart input found
  rw [Language.mem_one]
  constructor
  · intro member
    obtain rfl := List.mem_singleton.mp member
    exact ⟨rfl, rfl, rfl⟩
  · rintro ⟨none, rfl, captures⟩
    rw [finds, List.mem_singleton]
    exact Found.ext none (by rw [none, List.nil_append]) captures

/-- The texts of one accepted letter. -/
def oneOf (accepts : Letter → Bool) : Language Letter :=
  {text | ∃ letter, accepts letter ∧ text = [letter]}

/-- A set reads one accepted letter. -/
theorem reads_set (accepts : Letter → Bool) : Reads (set accepts) (oneOf accepts) := by
  intro atStart input found
  constructor
  · intro member
    cases input with
    | nil => cases member
    | cons letter rest =>
        simp only [finds] at member
        split at member
        · rename_i accepted
          obtain rfl := List.mem_singleton.mp member
          exact ⟨⟨letter, accepted, rfl⟩, rfl, rfl⟩
        · cases member
  · rintro ⟨⟨letter, accepted, one⟩, rfl, captures⟩
    rw [one, List.singleton_append, finds, if_pos accepted, List.mem_singleton]
    exact Found.ext one rfl captures

/-- A sequence reads the product of the languages. -/
theorem Reads.seq {first second : Regex Letter} {left right : Language Letter}
    (reads : Reads first left) (later : Reads second right) :
    Reads (seq first second) (left * right) := by
  intro atStart input found
  rw [mem_finds_seq, Language.mem_mul]
  constructor
  · rintro ⟨front, frontFound, back, backFound, rfl⟩
    obtain ⟨frontText, rfl, frontNone⟩ := (reads _ _ _).mp frontFound
    obtain ⟨backText, backRest, backNone⟩ := (later _ _ _).mp backFound
    refine ⟨⟨front.text, frontText, back.text, backText, rfl⟩, ?_, ?_⟩
    · rw [Found.follow, List.append_assoc, backRest]
    · rw [Found.follow, frontNone, backNone, List.append_nil]
  · rintro ⟨⟨front, frontText, back, backText, both⟩, rfl, captures⟩
    refine ⟨⟨front, back ++ found.rest, []⟩, (reads _ _ _).mpr ⟨frontText, ?_, rfl⟩,
      ⟨back, found.rest, []⟩, (later _ _ _).mpr ⟨backText, rfl, rfl⟩, ?_⟩
    · rw [← both, List.append_assoc]
    · exact Found.ext both rfl captures.symm

/-- An alternative reads the union of the languages. -/
theorem Reads.alt {first second : Regex Letter} {left right : Language Letter}
    (reads : Reads first left) (others : Reads second right) :
    Reads (alt first second) (left + right) := by
  intro atStart input found
  rw [finds, List.mem_append, reads, others, Language.mem_add, or_and_right]

/-- The texts with one accepted letter for each set. -/
def oneOfEach (sets : List (Letter → Bool)) : Language Letter :=
  {text | List.Forall₂ (fun accepts letter => accepts letter) sets text}

/-- A sequence of sets reads one accepted letter for each set. -/
theorem reads_sequence (sets : List (Letter → Bool)) :
    Reads (sequence sets) (oneOfEach sets) := by
  induction sets with
  | nil =>
      exact reads_empty.congr fun text => List.forall₂_nil_left_iff.symm
  | cons accepts others ih =>
      refine ((reads_set accepts).seq ih).congr fun text => ?_
      rw [Language.mem_mul]
      constructor
      · rintro ⟨_, ⟨letter, accepted, rfl⟩, rest, each, rfl⟩
        exact .cons accepted each
      · intro each
        obtain ⟨letter, rest, accepted, others, rfl⟩ := List.forall₂_cons_left_iff.mp each
        exact ⟨[letter], ⟨letter, accepted, rfl⟩, rest, others, rfl⟩

/-- The end of a loop is one of its finds, whatever the preference. -/
theorem mem_arrange {greedy : Bool} {more : List (Found Letter)} {input : List Letter}
    {found : Found Letter} :
    found ∈ arrange greedy more input ↔ found ∈ more ∨ found = ⟨[], input, []⟩ := by
  unfold arrange
  split
  · rw [List.mem_append, List.mem_singleton]
  · rw [List.mem_cons, or_comm]

/-- A loop finds its end and, after each iteration that matches a letter, its further finds. -/
theorem mem_iterate_succ {once : Bool → List Letter → List (Found Letter)} {greedy : Bool}
    {fuel : Nat} {atStart : Bool} {input : List Letter} {found : Found Letter} :
    found ∈ iterate once greedy (fuel + 1) atStart input ↔
      (∃ first ∈ once atStart input, first.text ≠ [] ∧
        ∃ others ∈ iterate once greedy fuel false first.rest, first.again others = found) ∨
      found = ⟨[], input, []⟩ := by
  rw [iterate, mem_arrange, List.mem_flatMap]
  refine or_congr (exists_congr fun first => and_congr_right fun _ => ?_) Iff.rfl
  cases text : first.text with
  | nil => simp
  | cons letter letters => simp

/-- A loop with enough fuel reads the Kleene star of the language. -/
theorem Reads.iterate {body : Regex Letter} {language : Language Letter}
    (reads : Reads body language) (greedy : Bool) (fuel : Nat) :
    ∀ (atStart : Bool) (input : List Letter), input.length ≤ fuel → ∀ found : Found Letter,
      found ∈ iterate (finds body) greedy fuel atStart input ↔
        found.text ∈ language∗ ∧ found.text ++ found.rest = input ∧ found.captures = [] := by
  induction fuel with
  | zero =>
      intro atStart input enough found
      obtain rfl := List.length_eq_zero_iff.mp (Nat.le_zero.mp enough)
      rw [Regex.iterate, List.mem_singleton]
      constructor
      · rintro rfl
        exact ⟨Language.nil_mem_kstar language, rfl, rfl⟩
      · rintro ⟨_, none, captures⟩
        obtain ⟨text, rest⟩ := List.append_eq_nil_iff.mp none
        exact Found.ext text rest captures
  | succ fuel ih =>
      intro atStart input enough found
      rw [mem_iterate_succ]
      constructor
      · rintro (⟨first, firstFound, nonempty, others, othersFound, rfl⟩ | rfl)
        · obtain ⟨firstText, rfl, firstNone⟩ := (reads _ _ _).mp firstFound
          have positive := List.length_pos_iff.mpr nonempty
          rw [List.length_append] at enough
          obtain ⟨othersText, othersRest, othersNone⟩ := (ih _ _ (by omega) _).mp othersFound
          refine ⟨?_, ?_, ?_⟩
          · obtain ⟨parts, flat, inside⟩ := Language.mem_kstar.mp othersText
            refine Language.mem_kstar.mpr ⟨first.text :: parts, ?_, ?_⟩
            · rw [Found.again, flat, List.flatten_cons]
            · exact List.forall_mem_cons.mpr ⟨firstText, inside⟩
          · rw [Found.again, List.append_assoc, othersRest]
          · rw [Found.again, firstNone, othersNone, ite_self]
        · exact ⟨Language.nil_mem_kstar language, rfl, rfl⟩
      · rintro ⟨member, rfl, captures⟩
        obtain ⟨parts, flat, inside⟩ := Language.mem_kstar_iff_exists_nonempty.mp member
        cases parts with
        | nil =>
            refine .inr (Found.ext flat ?_ captures)
            rw [flat, List.flatten_nil, List.nil_append]
        | cons first others =>
            obtain ⟨⟨firstText, nonempty⟩, inside⟩ := List.forall_mem_cons.mp inside
            have positive := List.length_pos_iff.mpr nonempty
            rw [List.flatten_cons] at flat
            rw [flat, List.append_assoc, List.length_append] at enough
            have shorter : (others.flatten ++ found.rest).length ≤ fuel := by omega
            refine .inl ⟨⟨first, others.flatten ++ found.rest, []⟩, ?_, nonempty,
              ⟨others.flatten, found.rest, []⟩, ?_, ?_⟩
            · exact (reads _ _ _).mpr ⟨firstText, by rw [flat, List.append_assoc], rfl⟩
            · refine (ih _ _ shorter _).mpr ⟨?_, rfl, rfl⟩
              exact Language.join_mem_kstar fun part member => (inside part member).1
            · exact Found.ext flat.symm rfl (by rw [captures, Found.again, ite_self])

/-- A star reads the Kleene star of the language, greedy or lazy. -/
theorem Reads.star {body : Regex Letter} {language : Language Letter}
    (reads : Reads body language) (greedy : Bool) : Reads (star greedy body) language∗ := by
  intro atStart input found
  rw [finds, reads.iterate greedy input.length atStart input le_rfl]

/-- The Kleene star of a set of letters has the texts of these letters. -/
theorem mem_kstar_set {accepts : Letter → Bool} {text : List Letter} :
    text ∈ (oneOf accepts)∗ ↔ ∀ letter ∈ text, accepts letter := by
  rw [Language.mem_kstar]
  constructor
  · rintro ⟨parts, rfl, inside⟩ letter member
    obtain ⟨part, partMember, here⟩ := List.mem_flatten.mp member
    obtain ⟨other, accepted, rfl⟩ := inside part partMember
    obtain rfl := List.mem_singleton.mp here
    exact accepted
  · intro accepted
    refine ⟨text.map fun letter => [letter], ?_, ?_⟩
    · rw [← List.flatMap_def, List.flatMap_singleton']
    · intro part member
      obtain ⟨letter, here, rfl⟩ := List.mem_map.mp member
      exact ⟨letter, accepted letter here, rfl⟩

/-- A group finds the finds of its body and captures their text. -/
theorem Reads.mem_group {body : Regex Letter} {language : Language Letter}
    (reads : Reads body language) {index : Nat} {atStart : Bool} {input : List Letter}
    {found : Found Letter} :
    found ∈ finds (group index body) atStart input ↔
      found.text ∈ language ∧ found.text ++ found.rest = input ∧
        found.captures = [(index, found.text)] := by
  rw [finds, List.mem_map]
  constructor
  · rintro ⟨inner, member, rfl⟩
    obtain ⟨text, rest, captures⟩ := (reads _ _ _).mp member
    exact ⟨text, rest, by rw [Found.capture, captures]⟩
  · rintro ⟨text, rest, captures⟩
    refine ⟨⟨found.text, found.rest, []⟩, (reads _ _ _).mpr ⟨text, rest, rfl⟩, ?_⟩
    exact Found.ext rfl rfl captures.symm

/-- The end anchor finds the empty text at the end of the input. -/
theorem mem_finds_eol {atStart : Bool} {input : List Letter} {found : Found Letter} :
    found ∈ finds eol atStart input ↔ input = [] ∧ found = ⟨[], [], []⟩ := by
  cases input with
  | nil => simp [finds]
  | cons letter rest => simp [finds]

/-- At the start of the input the start anchor has no effect. -/
theorem finds_bol_seq (regex : Regex Letter) (input : List Letter) :
    finds (seq bol regex) true input = finds regex true input := by
  have same : (⟨[], input, []⟩ : Found Letter).follow = id := rfl
  simp only [finds, if_true, List.flatMap_singleton, same, List.map_id, List.isEmpty_nil,
    Bool.and_self]

/-- A sequence reads a text of its first part and goes on with the rest of the input. -/
theorem Reads.mem_seq {first second : Regex Letter} {language : Language Letter}
    (reads : Reads first language) {atStart : Bool} {input : List Letter} {found : Found Letter} :
    found ∈ finds (first.seq second) atStart input ↔
      ∃ text ∈ language, ∃ rest, text ++ rest = input ∧
        ∃ back ∈ finds second (atStart && text.isEmpty) rest,
          found = ⟨text ++ back.text, back.rest, back.captures⟩ := by
  rw [mem_finds_seq]
  constructor
  · rintro ⟨front, frontFound, back, backFound, rfl⟩
    obtain ⟨text, rest, none⟩ := (reads _ _ _).mp frontFound
    refine ⟨front.text, text, front.rest, rest, back, backFound, ?_⟩
    rw [Found.follow, none, List.nil_append]
  · rintro ⟨text, member, rest, rfl, back, backFound, rfl⟩
    exact ⟨⟨text, rest, []⟩, (reads _ _ _).mpr ⟨member, rfl, rfl⟩, back, backFound, rfl⟩

/-- A sequence that begins with a group captures the text that the group reads. -/
theorem Reads.mem_group_seq {body second : Regex Letter} {language : Language Letter}
    (reads : Reads body language) {index : Nat} {atStart : Bool} {input : List Letter}
    {found : Found Letter} :
    found ∈ finds ((group index body).seq second) atStart input ↔
      ∃ text ∈ language, ∃ rest, text ++ rest = input ∧
        ∃ back ∈ finds second (atStart && text.isEmpty) rest,
          found = ⟨text ++ back.text, back.rest, (index, text) :: back.captures⟩ := by
  rw [mem_finds_seq]
  constructor
  · rintro ⟨front, frontFound, back, backFound, rfl⟩
    obtain ⟨text, rest, captures⟩ := reads.mem_group.mp frontFound
    refine ⟨front.text, text, front.rest, rest, back, backFound, ?_⟩
    rw [Found.follow, captures, List.singleton_append]
  · rintro ⟨text, member, rest, rfl, back, backFound, rfl⟩
    exact ⟨⟨text, rest, [(index, text)]⟩, reads.mem_group.mpr ⟨member, rfl, rfl⟩, back, backFound,
      rfl⟩

/-- A match is a find that leaves no input. -/
theorem mem_of_regexMatch {regex : Regex Letter} {input : List Letter} {found : Found Letter}
    (matched : regexMatch regex input = some found) : found ∈ finds regex true input :=
  List.mem_of_find?_eq_some matched

/-- An input has a match as soon as some find leaves no input. -/
theorem exists_regexMatch {regex : Regex Letter} {input : List Letter} {found : Found Letter}
    (member : found ∈ finds regex true input) (full : found.rest = []) :
    ∃ first, regexMatch regex input = some first :=
  Option.isSome_iff_exists.mp <|
    List.find?_isSome.mpr ⟨found, member, List.isEmpty_iff.mpr full⟩

/-- In an ordered list of finds the match is below every other complete find. -/
theorem regexMatch_le {regex : Regex Letter} {input : List Letter} {rank : Found Letter → Nat}
    (ordered : (finds regex true input).Pairwise fun earlier later => rank earlier ≤ rank later)
    {found other : Found Letter} (matched : regexMatch regex input = some found)
    (member : other ∈ finds regex true input) (full : other.rest = []) :
    rank found ≤ rank other := by
  obtain ⟨_, before, after, split, skipped⟩ := List.find?_eq_some_iff_append.mp matched
  rw [split] at member ordered
  rcases List.mem_append.mp member with earlier | later
  · exact absurd (List.isEmpty_iff.mpr full) (by simpa using skipped other earlier)
  · rcases List.mem_cons.mp later with rfl | later
    · exact le_rfl
    · exact List.rel_of_pairwise_cons (List.pairwise_append.mp ordered).2.1 later

/-- The finds of a sequence are ordered by the first part and then by the second part. -/
theorem pairwise_seq {relation : Found Letter → Found Letter → Prop} {first second : Regex Letter}
    {atStart : Bool} {input : List Letter}
    (across : (finds first atStart input).Pairwise fun earlier later =>
      ∀ front ∈ finds second (atStart && earlier.text.isEmpty) earlier.rest,
        ∀ back ∈ finds second (atStart && later.text.isEmpty) later.rest,
          relation (earlier.follow front) (later.follow back))
    (within : ∀ found ∈ finds first atStart input,
      (finds second (atStart && found.text.isEmpty) found.rest).Pairwise fun front back =>
        relation (found.follow front) (found.follow back)) :
    (finds (seq first second) atStart input).Pairwise relation := by
  rw [finds, List.pairwise_flatMap]
  constructor
  · intro found member
    exact List.pairwise_map.mpr (within found member)
  · refine across.imp fun pairs => ?_
    intro front frontMember back backMember
    obtain ⟨front, frontFound, rfl⟩ := List.mem_map.mp frontMember
    obtain ⟨back, backFound, rfl⟩ := List.mem_map.mp backMember
    exact pairs front frontFound back backFound

/-- A greedy loop finds longer texts first and a lazy loop finds shorter texts first. -/
def Preferred (greedy : Bool) (earlier later : Found Letter) : Prop :=
  if greedy then later.text.length < earlier.text.length
  else earlier.text.length < later.text.length

/-- A loop over one set finds its texts in the order of their lengths. -/
theorem pairwise_iterate_set (accepts : Letter → Bool) (greedy : Bool) (fuel : Nat) :
    ∀ (atStart : Bool) (input : List Letter),
      (iterate (finds (set accepts)) greedy fuel atStart input).Pairwise (Preferred greedy) := by
  induction fuel with
  | zero => exact fun _ _ => List.pairwise_singleton _ _
  | succ fuel ih =>
      intro atStart input
      have more : ((finds (set accepts) atStart input).flatMap fun first =>
          if first.text.isEmpty then []
          else (iterate (finds (set accepts)) greedy fuel false first.rest).map first.again).Pairwise
            (Preferred greedy) := by
        cases input with
        | nil => exact List.Pairwise.nil
        | cons letter rest =>
            rw [finds]
            split
            · rw [List.flatMap_singleton, if_neg (by simp), List.pairwise_map]
              refine (ih false rest).imp fun preferred => ?_
              simpa [Preferred, Found.again] using preferred
            · exact List.Pairwise.nil
      have longer : ∀ found ∈ (finds (set accepts) atStart input).flatMap fun first =>
          if first.text.isEmpty then []
          else (iterate (finds (set accepts)) greedy fuel false first.rest).map first.again,
          0 < found.text.length := by
        intro found member
        obtain ⟨first, _, inside⟩ := List.mem_flatMap.mp member
        split at inside
        · cases inside
        · rename_i nonempty
          obtain ⟨others, _, rfl⟩ := List.mem_map.mp inside
          rw [List.isEmpty_iff] at nonempty
          have positive := List.length_pos_iff.mpr nonempty
          rw [Found.again, List.length_append]
          omega
      rw [iterate, arrange]
      cases greedy with
      | true =>
          refine List.pairwise_append.mpr ⟨more, List.pairwise_singleton _ _, ?_⟩
          intro found member stop here
          obtain rfl := List.mem_singleton.mp here
          exact longer found member
      | false => exact List.pairwise_cons.mpr ⟨longer, more⟩

/-- A star of one set finds its texts in the order of their lengths. -/
theorem pairwise_star_set (accepts : Letter → Bool) (greedy atStart : Bool) (input : List Letter) :
    (finds (star greedy (set accepts)) atStart input).Pairwise (Preferred greedy) :=
  pairwise_iterate_set accepts greedy input.length atStart input

/-- A repetition of one set finds its texts in the order of their lengths. -/
theorem pairwise_plus_set (accepts : Letter → Bool) (greedy atStart : Bool) (input : List Letter) :
    (finds (seq (set accepts) (star greedy (set accepts))) atStart input).Pairwise
      (Preferred greedy) := by
  refine pairwise_seq ?_ ?_
  · cases input with
    | nil => exact List.Pairwise.nil
    | cons letter rest =>
        rw [finds]
        split
        · exact List.pairwise_singleton _ _
        · exact List.Pairwise.nil
  · intro found _
    refine (pairwise_star_set accepts greedy _ found.rest).imp fun preferred => ?_
    simpa [Preferred, Found.follow] using preferred

end Regex

end Plazza.Foundation
