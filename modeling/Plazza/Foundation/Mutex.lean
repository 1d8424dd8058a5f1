import Mathlib.Logic.Basic

namespace Plazza.Foundation

variable {Thread : Type}

/-- The holder of a mutex is the only thread in a section under it. -/
def Owned (holder : Option Thread) (inside : Thread → Bool) : Prop :=
  ∀ thread, inside thread = true ↔ holder = some thread

namespace Owned

variable {holder : Option Thread} {before after : Thread → Bool} {thread : Thread}

/-- Two threads in a section are the same. -/
theorem unique (owned : Owned holder before) {other : Thread} (first : before thread = true)
    (second : before other = true) : thread = other :=
  Option.some.inj (((owned thread).mp first).symm.trans ((owned other).mp second))

/-- Every other thread is outside while a thread has the mutex or takes it free. -/
theorem apart (owned : Owned holder before) (has : holder = none ∨ holder = some thread)
    {other : Thread} (different : other ≠ thread) : before other = false := by
  rw [Bool.eq_false_iff]
  intro entered
  have holds := (owned other).mp entered
  obtain free | taken := has
  · rw [free] at holds
    cases holds
  · exact different (Option.some.inj (holds.symm.trans taken))

/-- A thread that has the mutex or takes it free keeps it exactly while it stays inside. -/
theorem step (owned : Owned holder before) (has : holder = none ∨ holder = some thread)
    (others : ∀ other, other ≠ thread → after other = before other) {next : Option Thread}
    (held : next = if after thread then some thread else none) : Owned next after := by
  intro other
  rw [held]
  by_cases same : other = thread
  · subst other
    cases after thread <;> simp
  · rw [others other same, owned.apart has same]
    split
    · simp [Ne.symm same]
    · simp

/-- A step that moves no thread into a section or out of one leaves the mutex alone. -/
theorem stay (owned : Owned holder before) (same : ∀ other, after other = before other) :
    Owned holder after := by
  intro other
  rw [same]
  exact owned other

end Owned

end Plazza.Foundation
