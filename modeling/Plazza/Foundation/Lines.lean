import Mathlib.Data.List.Count

namespace Plazza.Foundation.Lines

variable {Item : Type} [DecidableEq Item]

/-- An item ends the current line or extends it. The pair has the complete lines and the rest. -/
def feed (mark : Item) (state : List (List Item) × List Item) (item : Item) :
    List (List Item) × List Item :=
  if item = mark then (state.1 ++ [state.2], []) else (state.1, state.2 ++ [item])

def split (mark : Item) (text : List Item) : List (List Item) × List Item :=
  text.foldl (feed mark) ([], [])

/-- The lines of a text that end in it. -/
def lines (mark : Item) (text : List Item) : List (List Item) := (split mark text).1

variable {mark item : Item} {text more done : List Item} {state : List (List Item) × List Item}

theorem feed_mark : feed mark state mark = (state.1 ++ [state.2], []) := if_pos rfl

theorem feed_of_ne (other : item ≠ mark) : feed mark state item = (state.1, state.2 ++ [item]) :=
  if_neg other

/-- The rest of a text goes on where its beginning has stopped. -/
theorem split_append : split mark (text ++ more) = more.foldl (feed mark) (split mark text) :=
  List.foldl_append ..

theorem split_concat : split mark (text ++ [item]) = feed mark (split mark text) item :=
  split_append

/-- Each mark ends one line. -/
theorem length_foldl (text : List Item) (state : List (List Item) × List Item) :
    (text.foldl (feed mark) state).1.length = state.1.length + text.count mark := by
  induction text generalizing state with
  | nil => rfl
  | cons item rest ih =>
      rw [List.foldl_cons, ih, List.count_cons]
      by_cases same : item = mark
      · rw [same, feed_mark, List.length_append, List.length_singleton, if_pos (beq_self_eq_true _)]
        omega
      · rw [feed_of_ne same, if_neg (by simpa using same)]
        rfl

/-- A text without a mark ends no line. -/
theorem foldl_of_not_mem (absent : mark ∉ text) :
    text.foldl (feed mark) state = (state.1, state.2 ++ text) := by
  induction text generalizing state with
  | nil => rw [List.append_nil]; rfl
  | cons item rest ih =>
      have other : item ≠ mark := fun same => absent (same ▸ List.mem_cons_self)
      have tail : mark ∉ rest := fun member => absent (List.mem_cons_of_mem _ member)
      rw [List.foldl_cons, ih tail, feed_of_ne other, List.append_assoc,
        List.singleton_append]

/-- A text has the lines of its beginning exactly when the rest has no mark. -/
theorem lines_append_eq_iff {beginning : List (List Item)} {rest : List Item}
    (begins : split mark text = (beginning, rest)) :
    beginning = lines mark (text ++ more) ↔ mark ∉ more := by
  rw [lines, split_append, begins]
  constructor
  · intro same
    have lengths := congrArg List.length same
    rw [length_foldl] at lengths
    have none : more.count mark = 0 := by
      change beginning.length = beginning.length + _ at lengths
      omega
    exact List.count_eq_zero.mp none
  · intro absent
    rw [foldl_of_not_mem absent]

/-- The lines of a text, the rest included when it has an item. -/
def all (mark : Item) (text : List Item) : List (List Item) :=
  lines mark text ++ if (split mark text).2 = [] then [] else [(split mark text).2]

/-- The lines of a text go on with the lines of a longer one. -/
theorem foldl_prefix (text : List Item) (state : List (List Item) × List Item) :
    state.1 <+: (text.foldl (feed mark) state).1 := by
  induction text generalizing state with
  | nil => exact List.prefix_rfl
  | cons item rest ih =>
      refine List.IsPrefix.trans ?_ (ih (feed mark state item))
      by_cases same : item = mark
      · rw [same, feed_mark]
        exact List.prefix_append _ _
      · have kept : (feed mark state item).1 = state.1 := by rw [feed_of_ne same]
        exact kept ▸ List.prefix_rfl

theorem lines_prefix_all : lines mark text <+: all mark (text ++ more) := by
  have longer : lines mark text <+: lines mark (text ++ more) := by
    rw [lines, lines, split_append]
    exact foldl_prefix more _
  exact longer.trans (List.prefix_append _ _)

end Plazza.Foundation.Lines
