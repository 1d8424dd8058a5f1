import Plazza.Construction.Session
import Plazza.Construction.KitchenWorker

namespace Plazza
open Plazza.Foundation

namespace Session

variable {P : KitchenProcess} {nCooks : Nat} {limit : Option Nat} {session next : Session P}

/-- The steps of the program beside its input. -/
def passes : SessionLabel P → Option (ProgramLabel P)
  | .timeout => some .timeout
  | .reception => some .reception
  | .kitchen id label => some (.kitchen id label)
  | .elapse duration => some (.elapse duration)
  | _ => none

/-- All that a step of a session does. -/
inductive Moves (nCooks : Nat) (limit : Option Nat) (session : Session P) :
    SessionLabel P → Session P → Prop
  | arrived {text : Parser.Text} : Moves nCooks limit session (.arrive text)
      { session with kernel := session.kernel ++ text, typed := session.typed ++ text }
  | closed : Moves nCooks limit session .close { session with closed := true }
  | selected (free : session.reading = none) :
      Moves nCooks limit session .ready { session with reading := some [] }
  | refilled {count : Nat} (reads : session.reading ≠ none) (empty : session.buffer = []) :
      Moves nCooks limit session (.read count) { session with
        buffer := session.kernel.take count
        kernel := session.kernel.drop count }
  | extended {line rest : Parser.Text} {character : Char} (reads : session.reading = some line)
      (buffers : session.buffer = character :: rest) (goes : character ≠ '\n') :
      Moves nCooks limit session .extract
        { session with reading := some (line ++ [character]), buffer := rest }
  | returned {line rest : Parser.Text} {program : Program P} (reads : session.reading = some line)
      (buffers : session.buffer = '\n' :: rest)
      (handled : session.program.step nCooks limit (.line line) = some program) :
      Moves nCooks limit session .extract { session with
        program
        buffer := rest
        reading := none
        handled := session.handled ++ [line] }
  | last {line : Parser.Text} {program : Program P} (closed : session.closed = true)
      (reads : session.reading = some line) (full : line ≠ []) (empty : session.buffer = [])
      (handled : session.program.step nCooks limit (.line line) = some program) :
      Moves nCooks limit session .endOfFile
        { session with program, reading := none, handled := session.handled ++ [line] }
  | left {program : Program P} (closed : session.closed = true) (reads : session.reading = some [])
      (empty : session.buffer = [])
      (stepped : session.program.step nCooks limit .endOfInput = some program) :
      Moves nCooks limit session .endOfFile { session with program, reading := none }
  | passed {label : SessionLabel P} {event : ProgramLabel P} {program : Program P}
      (passes : passes label = some event)
      (stepped : session.program.step nCooks limit event = some program) :
      Moves nCooks limit session label { session with program }

theorem moves_of_advance {label : SessionLabel P} {event : ProgramLabel P}
    (passing : passes label = some event) (taken : session.advance nCooks limit event = some next) :
    session.Moves nCooks limit label next := by
  obtain ⟨program, stepped, rfl⟩ := Option.map_eq_some_iff.mp taken
  exact .passed passing stepped

theorem moves_of_step {label : SessionLabel P}
    (taken : session.step nCooks limit label = some next) : session.Moves nCooks limit label next := by
  cases label with
  | arrive text =>
      simp only [step] at taken
      split at taken
      · cases taken
      · cases taken
        exact .arrived
  | close =>
      cases taken
      exact .closed
  | ready =>
      simp only [step] at taken
      split at taken
      · rename_i waits
        cases taken
        exact .selected waits.2.1
      · cases taken
  | timeout =>
      simp only [step] at taken
      split at taken
      · exact moves_of_advance rfl taken
      · cases taken
  | read count =>
      simp only [step] at taken
      split at taken
      · rename_i reads
        cases taken
        exact .refilled reads.1 reads.2.1
      · cases taken
  | extract =>
      simp only [step] at taken
      split at taken
      · rename_i line character rest reads buffers
        split at taken
        · rename_i ends
          obtain ⟨program, handled, rfl⟩ := Option.map_eq_some_iff.mp taken
          exact .returned reads (ends ▸ buffers) handled
        · rename_i goes
          cases taken
          exact .extended reads buffers goes
      · cases taken
  | endOfFile =>
      simp only [step] at taken
      split at taken
      · rename_i ended
        split at taken
        · cases taken
        · rename_i reads
          obtain ⟨program, stepped, rfl⟩ := Option.map_eq_some_iff.mp taken
          exact .left ended.1 reads ended.2.2 stepped
        · rename_i line full reads
          obtain ⟨program, handled, rfl⟩ := Option.map_eq_some_iff.mp taken
          refine .last ended.1 reads ?_ ended.2.2 handled
          rintro rfl
          exact full rfl
      · cases taken
  | reception | kitchen | elapse => exact moves_of_advance rfl taken

/-- What a step of a session does to the program. -/
def observe (session : Session P) : SessionLabel P → Option (ProgramLabel P)
  | .extract => if session.buffer.head? = some '\n' then session.reading.map .line else none
  | .endOfFile => if session.reading = some [] then some .endOfInput else session.reading.map .line
  | label => passes label

/-- A session is a run of the program however its input arrives. -/
theorem refines_program (P : KitchenProcess) (nCooks : Nat) (limit : Option Nat) :
    Machine.Refinement (machine P nCooks limit) (Program.machine P nCooks limit) Session.program
      observe := by
  refine .of_follows rfl fun {session next label} _ taken => ?_
  cases moves_of_step taken with
  | arrived => rfl
  | closed => rfl
  | selected => rfl
  | refilled => rfl
  | extended reads buffers goes =>
      have silent : session.observe .extract = none := by
        rw [observe, buffers, if_neg (by simpa using goes)]
      rw [silent]
      rfl
  | @returned line _ _ reads buffers handled =>
      have visible : session.observe .extract = some (.line line) := by
        rw [observe, buffers, if_pos (by rfl), reads]
        rfl
      rw [visible]
      exact handled
  | @last line _ closed reads full empty handled =>
      have visible : session.observe .endOfFile = some (.line line) := by
        rw [observe, reads, if_neg (by simpa using full)]
        rfl
      rw [visible]
      exact handled
  | left closed reads empty stepped =>
      have visible : session.observe .endOfFile = some .endOfInput := by
        rw [observe, reads, if_pos rfl]
      rw [visible]
      exact stepped
  | @passed _ event _ passing stepped =>
      have visible : session.observe label = some event := by
        cases label <;> first | exact passing | cases passing
      rw [visible]
      exact stepped

/-- The history is what has left the buffers, cut at the line ends. -/
def Split (session : Session P) : Prop :=
  session.closed = false → ∃ consumed,
    session.typed = consumed ++ (session.buffer ++ session.kernel) ∧
      Lines.split '\n' consumed = (session.handled, session.reading.getD [])

/-- Every step keeps the cut, whatever its reads return. -/
theorem split_step {label : SessionLabel P} (split : session.Split)
    (moves : session.Moves nCooks limit label next) : next.Split := by
  intro opened
  cases moves with
  | @arrived text =>
      obtain ⟨consumed, typed, cut⟩ := split opened
      refine ⟨consumed, ?_, cut⟩
      change session.typed ++ text = consumed ++ (session.buffer ++ (session.kernel ++ text))
      rw [typed, List.append_assoc, List.append_assoc]
  | closed => cases opened
  | selected free =>
      obtain ⟨consumed, typed, cut⟩ := split opened
      rw [free] at cut
      exact ⟨consumed, typed, cut⟩
  | @refilled count reads empty =>
      obtain ⟨consumed, typed, cut⟩ := split opened
      refine ⟨consumed, ?_, cut⟩
      change session.typed = consumed ++ (session.kernel.take count ++ session.kernel.drop count)
      rw [typed, empty, List.take_append_drop]
      rfl
  | @extended line rest character reads buffers goes =>
      obtain ⟨consumed, typed, cut⟩ := split opened
      rw [reads] at cut
      refine ⟨consumed ++ [character], ?_, ?_⟩
      · change session.typed = consumed ++ [character] ++ (rest ++ session.kernel)
        rw [typed, buffers, List.append_assoc]
        rfl
      · rw [Lines.split_concat, cut, Lines.feed_of_ne goes]
        rfl
  | @returned line rest _ reads buffers _ =>
      obtain ⟨consumed, typed, cut⟩ := split opened
      rw [reads] at cut
      refine ⟨consumed ++ ['\n'], ?_, ?_⟩
      · change session.typed = consumed ++ ['\n'] ++ (rest ++ session.kernel)
        rw [typed, buffers, List.append_assoc]
        rfl
      · rw [Lines.split_concat, cut, Lines.feed_mark]
        rfl
  | last closed => cases opened.symm.trans closed
  | left closed => cases opened.symm.trans closed
  | passed => exact split opened

theorem split_of_reachable (reached : (machine P nCooks limit).Reachable session) :
    session.Split := by
  refine reached.invariant (motive := Split) ?_ fun _ split _ taken =>
    split_step split (moves_of_step taken)
  exact fun _ => ⟨[], rfl, rfl⟩

/-- The buffer has at most the end of the line that `getline` is about to return. -/
def Short (session : Session P) : Prop :=
  session.buffer.count '\n' ≤ if session.reading.isSome then 1 else 0

/-- A read returns at most one line end. -/
def OneLine (session : Session P) : SessionLabel P → Prop
  | .read count => (session.kernel.take count).count '\n' ≤ 1
  | _ => True

instance (session : Session P) (label : SessionLabel P) : Decidable (session.OneLine label) :=
  match label with
  | .read _ => inferInstanceAs (Decidable (_ ≤ _))
  | .arrive _ | .close | .ready | .timeout | .extract | .endOfFile | .reception | .kitchen _ _
  | .elapse _ => inferInstanceAs (Decidable True)

theorem short_step {label : SessionLabel P} (short : session.Short)
    (allowed : session.OneLine label) (moves : session.Moves nCooks limit label next) :
    next.Short := by
  cases moves with
  | arrived | closed | passed => exact short
  | selected free =>
      rw [Short, free] at short
      exact Nat.le_succ_of_le short
  | refilled reads empty =>
      rw [Short, if_pos (Option.isSome_iff_ne_none.mpr reads)]
      exact allowed
  | @extended line rest character reads buffers goes =>
      rw [Short, reads, buffers, List.count_cons_of_ne goes] at short
      exact short
  | @returned line rest program reads buffers _ =>
      rw [Short, reads, buffers, List.count_cons_self] at short
      exact Nat.le_of_succ_le_succ short
  | last closed reads full empty | left closed reads empty =>
      change session.buffer.count '\n' ≤ 0
      rw [empty]
      rfl

theorem short_of_reachable (reached : (machine P nCooks limit).ReachableUnder OneLine session) :
    session.Short := by
  refine reached.invariant (motive := Short) ?_ fun _ short allowed taken =>
    short_step short allowed (moves_of_step taken)
  exact Nat.le_refl 0

/-- When `select` times out, every line that has arrived is handled if and only if the buffer of the
stream has no line end. -/
theorem handled_iff_of_timeout (reached : (machine P nCooks limit).Reachable session)
    (taken : session.step nCooks limit .timeout = some next) :
    session.handled = Lines.lines '\n' session.typed ↔ '\n' ∉ session.buffer := by
  simp only [step] at taken
  split at taken
  · rename_i quiet
    obtain ⟨free, drained, opened⟩ := quiet
    obtain ⟨consumed, typed, cut⟩ := split_of_reachable reached opened
    rw [typed, drained, List.append_nil, Lines.lines_append_eq_iff cut]
  · cases taken

/-- In every session whose reads return at most one line end each, every line that has arrived is
handled when `select` times out. Two such sessions with one text have handled the same lines. -/
theorem handled_of_reachable (reached : (machine P nCooks limit).ReachableUnder OneLine session)
    (taken : session.step nCooks limit .timeout = some next) :
    session.handled = Lines.lines '\n' session.typed ∧
      ∀ other after : Session P, (machine P nCooks limit).ReachableUnder OneLine other →
        other.step nCooks limit .timeout = some after → other.typed = session.typed →
        other.handled = session.handled := by
  have complete (session next : Session P)
      (reached : (machine P nCooks limit).ReachableUnder OneLine session)
      (taken : session.step nCooks limit .timeout = some next) :
      session.handled = Lines.lines '\n' session.typed := by
    have free : session.reading = none := by
      simp only [step] at taken
      split at taken
      · rename_i quiet
        exact quiet.1
      · cases taken
    have short := short_of_reachable reached
    rw [Short, free] at short
    have absent : '\n' ∉ session.buffer := List.count_eq_zero.mp (Nat.le_zero.mp short)
    exact (handled_iff_of_timeout reached.reachable taken).mpr absent
  refine ⟨complete session next reached taken, fun other after also timedOut same => ?_⟩
  rw [complete session next reached taken, complete other after also timedOut, same]

/-- Two lines arrive together and a read takes one of them at a time. -/
def lineByLine : List (SessionLabel (KitchenWorker.process 1 none)) :=
  [.arrive "\n\n".toList, .ready, .read 1, .extract, .ready, .read 1, .extract]

theorem handled_of_lineByLine :
    ∃ session next : Session (KitchenWorker.process 1 none), session.typed = "\n\n".toList ∧
      session.step 1 none .timeout = some next ∧
        session.handled = Lines.lines '\n' session.typed := by
  obtain ⟨session, reached, checked⟩ :=
    (machine (KitchenWorker.process 1 none) 1 none).exists_reachableUnder
      (fun session label => decide (session.OneLine label)) lineByLine
      (fun session => (session.step 1 none .timeout).isSome &&
        decide (session.typed = "\n\n".toList)) (by decide)
  rw [Bool.and_eq_true, decide_eq_true_iff] at checked
  obtain ⟨next, taken⟩ := Option.isSome_iff_exists.mp checked.1
  have short := reached.mono fun _ _ => of_decide_eq_true
  exact ⟨session, next, checked.2, taken, (handled_of_reachable short taken).1⟩

/-- Both lines arrive before one read. -/
def pasted : List (SessionLabel (KitchenWorker.process 1 none)) :=
  [.arrive "\nstatus\n".toList, .ready, .read 8, .extract]

/-- The second of two lines in one read waits in the buffer of the stream while `select` times
out. -/
theorem exists_unhandled :
    ∃ session next : Session (KitchenWorker.process 1 none),
      (machine _ 1 none).Reachable session ∧ session.step 1 none .timeout = some next ∧
        session.handled ≠ Lines.lines '\n' session.typed := by
  obtain ⟨session, reached, checked⟩ := (machine (KitchenWorker.process 1 none) 1 none).exists_reachable
    pasted (fun session => (session.step 1 none .timeout).isSome &&
      decide (session.handled ≠ Lines.lines '\n' session.typed)) (by decide)
  rw [Bool.and_eq_true, decide_eq_true_iff] at checked
  obtain ⟨next, taken⟩ := Option.isSome_iff_exists.mp checked.1
  exact ⟨session, next, reached, taken, checked.2⟩

end Session

end Plazza
