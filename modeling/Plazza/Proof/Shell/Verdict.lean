import Plazza.Proof.Reception.Steps
import Plazza.Proof.Shell.Buffering

namespace Plazza
open Plazza.Foundation

/-- The shell throws for the line. -/
def Shell.rejects (line : Parser.Text) : Bool :=
  match handleLine line with
  | .thrown _ => true
  | _ => false

namespace Program

variable {P : KitchenProcess} {nCooks : Nat} {limit : Option Nat}

/-- The call of the reception that a label begins or goes on with. -/
def observe (_ : Program P) : ProgramLabel P → Option (PizzeriaLabel P)
  | .line text =>
      match Shell.handleLine text with
      | .ignored => none
      | .statusCallback => some .status
      | .orderCallback orders => some (.order orders)
      | .thrown _ => some .close
  | .endOfInput => some .close
  | .timeout => some .poll
  | .reception => some .reception
  | .kitchen id label => some (.kitchen id label)
  | .elapse duration => some (.elapse duration)

/-- The exit code and the error lines with which a label ends the shell. -/
def leaves : ProgramLabel P → Option (Nat × List String)
  | .line text =>
      match Shell.handleLine text with
      | .thrown message => some (84, ["Error: " ++ message])
      | _ => none
  | .endOfInput => some (0, [])
  | _ => none

/-- A label ends the shell or leaves its results alone. -/
def Results (program next : Program P) (label : ProgramLabel P) : Prop :=
  match leaves label with
  | none => next.exitCode = program.exitCode ∧ next.errors = program.errors
  | some (exitCode, errors) =>
      next.exitCode = some exitCode ∧ next.errors = program.errors ++ errors

/-- The reception follows the program, and only two labels end it. -/
theorem step_spec {program next : Program P} {label : ProgramLabel P}
    (taken : program.step nCooks limit label = some next) :
    (Pizzeria.machine P nCooks limit).Follows program.pizzeria (program.observe label)
        next.pizzeria ∧ program.Results next label := by
  have advanced : ∀ {call : PizzeriaLabel P}, program.advance nCooks limit call = some next →
      program.pizzeria.step nCooks limit call = some next.pizzeria ∧
        next.exitCode = program.exitCode ∧ next.errors = program.errors := by
    intro call moved
    obtain ⟨pizzeria, stepped, rfl⟩ := Option.map_eq_some_iff.mp moved
    exact ⟨stepped, rfl, rfl⟩
  have left : ∀ {exitCode : Nat} {errors : List String},
      program.leave nCooks limit exitCode errors = some next →
      program.pizzeria.step nCooks limit .close = some next.pizzeria ∧
        next.exitCode = some exitCode ∧ next.errors = program.errors ++ errors := by
    intro exitCode errors moved
    obtain ⟨pizzeria, stepped, rfl⟩ := Option.map_eq_some_iff.mp moved
    exact ⟨stepped, rfl, rfl⟩
  cases label with
  | line text =>
      simp only [step] at taken
      split at taken
      swap
      · cases taken
      rw [Results, leaves, observe]
      cases handled : Shell.handleLine text <;> rw [handled] at taken
      · cases taken
        exact ⟨rfl, rfl, rfl⟩
      · exact advanced taken
      · exact advanced taken
      · exact left taken
  | endOfInput =>
      simp only [step] at taken
      split at taken
      · exact left taken
      · cases taken
  | timeout =>
      simp only [step] at taken
      split at taken
      · exact advanced taken
      · cases taken
  | reception | kitchen | elapse => exact advanced taken

/-- The program is its reception with a shell around it. -/
theorem refines_pizzeria (P : KitchenProcess) (nCooks : Nat) (limit : Option Nat) :
    Machine.Refinement (machine P nCooks limit) (Pizzeria.machine P nCooks limit) Program.pizzeria
      observe :=
  .of_follows rfl fun _ taken => (step_spec taken).1

/-- A program that has left its shell reads nothing. -/
theorem waiting_of_reads {program next : Program P} {label : ProgramLabel P}
    (taken : program.step nCooks limit label = some next)
    (reads : (∃ text, label = .line text) ∨ label = .endOfInput) : program.Waiting := by
  obtain ⟨text, rfl⟩ | rfl := reads <;>
  · simp only [step] at taken
    split at taken
    · assumption
    · cases taken

end Program

namespace Session

variable {P : KitchenProcess} {nCooks : Nat} {limit : Option Nat} {session next : Session P}

/-- What a step needs beside the text that it takes. -/
def Permits (session : Session P) : SessionLabel P → Prop
  | .arrive _ => session.closed = false
  | .ready => session.program.Waiting
  | .timeout => session.closed = false
  | .read count => 0 < count ∧ count ≤ session.kernel.length
  | .endOfFile => session.kernel = []
  | _ => True

theorem permits_of_step {label : SessionLabel P}
    (taken : session.step nCooks limit label = some next) : session.Permits label := by
  cases label with
  | arrive text =>
      simp only [step] at taken
      split at taken
      · cases taken
      · exact Bool.eq_false_of_not_eq_true ‹_›
  | ready =>
      simp only [step] at taken
      split at taken
      · rename_i waits
        exact waits.1
      · cases taken
  | timeout =>
      simp only [step] at taken
      split at taken
      · rename_i quiet
        exact quiet.2.2
      · cases taken
  | read count =>
      simp only [step] at taken
      split at taken
      · rename_i reads
        exact reads.2.2
      · cases taken
  | endOfFile =>
      simp only [step] at taken
      split at taken
      · rename_i ended
        exact ended.2.1
      · cases taken
  | close | extract | reception | kitchen | elapse => trivial

/-- The history is the lines of the text that has left the buffers, its rest included at the end. -/
def Told (session : Session P) : Prop :=
  ∃ consumed, session.typed = consumed ++ (session.buffer ++ session.kernel) ∧
    (Lines.split '\n' consumed = (session.handled, session.reading.getD []) ∨
      (session.buffer = [] ∧ session.kernel = [] ∧ session.closed = true) ∧
        session.reading.getD [] = [] ∧ session.handled = Lines.all '\n' consumed)

theorem Told.step {label : SessionLabel P} (told : session.Told) (permits : session.Permits label)
    (moves : session.Moves nCooks limit label next) : next.Told := by
  obtain ⟨consumed, typed, cut⟩ := told
  cases moves with
  | @arrived text =>
      refine ⟨consumed, ?_, cut.imp_right fun ended => ?_⟩
      · change session.typed ++ text = consumed ++ (session.buffer ++ (session.kernel ++ text))
        rw [typed, List.append_assoc, List.append_assoc]
      · exact absurd (ended.1.2.2.symm.trans permits) (by decide)
  | closed => exact ⟨consumed, typed, cut.imp_right fun ended => ⟨⟨ended.1.1, ended.1.2.1, rfl⟩, ended.2⟩⟩
  | selected free =>
      rw [free] at cut
      exact ⟨consumed, typed, cut⟩
  | @refilled count reads empty =>
      refine ⟨consumed, ?_, cut.imp_right fun ended => ?_⟩
      · change session.typed = consumed ++ (session.kernel.take count ++ session.kernel.drop count)
        rw [typed, empty, List.take_append_drop]
        rfl
      · obtain ⟨⟨_, drained, closed⟩, rest⟩ := ended
        exact ⟨⟨by rw [drained]; exact List.take_nil, by rw [drained]; exact List.drop_nil, closed⟩, rest⟩
  | @extended line rest character reads buffers goes =>
      rcases cut with cut | ⟨⟨empty, _⟩, _⟩
      · refine ⟨consumed ++ [character], ?_, .inl ?_⟩
        · change session.typed = consumed ++ [character] ++ (rest ++ session.kernel)
          rw [typed, buffers, List.append_assoc]
          rfl
        · rw [reads] at cut
          rw [Lines.split_concat, cut, Lines.feed_of_ne goes]
          rfl
      · rw [buffers] at empty
        cases empty
  | @returned line rest _ reads buffers _ =>
      rcases cut with cut | ⟨⟨empty, _⟩, _⟩
      · refine ⟨consumed ++ ['\n'], ?_, .inl ?_⟩
        · change session.typed = consumed ++ ['\n'] ++ (rest ++ session.kernel)
          rw [typed, buffers, List.append_assoc]
          rfl
        · rw [reads] at cut
          rw [Lines.split_concat, cut, Lines.feed_mark]
          rfl
      · rw [buffers] at empty
        cases empty
  | @last line _ closed reads full empty _ =>
      rw [reads] at cut
      rcases cut with cut | ⟨_, none', _⟩
      · refine ⟨consumed, typed, .inr ⟨⟨empty, permits, closed⟩, rfl, ?_⟩⟩
        rw [Lines.all, Lines.lines, cut, if_neg (by simpa using full)]
        rfl
      · exact absurd none' full
  | left closed reads empty _ =>
      rw [reads] at cut
      exact ⟨consumed, typed, cut⟩
  | passed => exact ⟨consumed, typed, cut⟩

theorem told_of_reachable (reached : (machine P nCooks limit).Reachable session) : session.Told := by
  refine reached.invariant (motive := Told) ⟨[], rfl, .inl rfl⟩ ?_
  intro session next label _ told _ taken
  exact told.step (permits_of_step taken) (moves_of_step taken)

/-- The handled lines begin the text. -/
theorem Told.begins (told : session.Told) : session.handled <+: Lines.all '\n' session.typed := by
  obtain ⟨consumed, typed, cut | ⟨⟨empty, drained, _⟩, _, handled⟩⟩ := told
  · rw [typed, show session.handled = Lines.lines '\n' consumed by rw [Lines.lines, cut]]
    exact Lines.lines_prefix_all
  · rw [typed, empty, drained, handled, List.append_nil, List.append_nil]

/-- Nothing is left of a text that has been read to its end. -/
theorem Told.all (told : session.Told) (empty : session.buffer = []) (drained : session.kernel = [])
    (reads : session.reading = some []) : session.handled = Lines.all '\n' session.typed := by
  obtain ⟨consumed, typed, cut | ⟨_, _, handled⟩⟩ := told
  · rw [reads] at cut
    rw [typed, empty, drained, List.append_nil, List.append_nil, Lines.all, Lines.lines, cut]
    exact (List.append_nil _).symm
  · rw [typed, empty, drained, handled, List.append_nil, List.append_nil]

/-- The exit code and the error lines tell how the shell has ended. -/
structure Verdict (session : Session P) : Prop where
  running : session.program.exitCode = none →
    session.program.errors = [] ∧ ∀ line ∈ session.handled, Shell.rejects line = false
  exited : ∀ exitCode, session.program.exitCode = some exitCode → session.reading = none ∧
    ((exitCode = 0 ∧ session.program.errors = [] ∧ session.closed = true ∧
        session.handled = Lines.all '\n' session.typed ∧
        ∀ line ∈ session.handled, Shell.rejects line = false) ∨
      exitCode = 84 ∧ ∃ earlier line message, session.handled = earlier ++ [line] ∧
        Shell.handleLine line = .thrown message ∧ session.program.errors = ["Error: " ++ message] ∧
        ∀ other ∈ earlier, Shell.rejects other = false)

/-- A handled line keeps the verdict. -/
theorem Verdict.hand {program : Program P} {line : Parser.Text} (verdict : session.Verdict)
    (stepped : session.program.step nCooks limit (.line line) = some program)
    (same : next.program = program) (handled : next.handled = session.handled ++ [line])
    (free : next.reading = none) : next.Verdict := by
  have waits := Program.waiting_of_reads stepped (.inl ⟨line, rfl⟩)
  obtain ⟨quiet, accepted⟩ := verdict.running waits.1
  have results := (Program.step_spec stepped).2
  rw [Program.Results, Program.leaves] at results
  subst same
  have others : Shell.rejects line = false → ∀ other ∈ next.handled, Shell.rejects other = false := by
    intro accepts other member
    rw [handled] at member
    rcases List.mem_append.mp member with before | last
    · exact accepted other before
    · exact List.mem_singleton.mp last ▸ accepts
  cases told : Shell.handleLine line with
  | thrown message =>
      rw [told] at results
      refine ⟨fun runs => ?_, fun exitCode exits => ⟨free, .inr ?_⟩⟩
      · rw [results.1] at runs
        cases runs
      · rw [results.1] at exits
        refine ⟨(Option.some.inj exits).symm, session.handled, line, message, handled, told, ?_, accepted⟩
        rw [results.2, quiet]
        rfl
  | ignored | statusCallback | orderCallback =>
      rw [told] at results
      refine ⟨fun _ => ⟨results.2.trans quiet, others (by rw [Shell.rejects, told])⟩, ?_⟩
      intro exitCode exits
      rw [results.1, waits.1] at exits
      cases exits

theorem Verdict.step {label : SessionLabel P} (verdict : session.Verdict) (told : session.Told)
    (permits : session.Permits label) (moves : session.Moves nCooks limit label next) :
    next.Verdict := by
  have reads : session.reading ≠ none → session.program.exitCode = none := by
    intro reads
    cases exits : session.program.exitCode with
    | none => rfl
    | some exitCode => exact absurd (verdict.exited exitCode exits).1 reads
  have runs : next.program = session.program → next.handled = session.handled →
      session.program.exitCode = none → next.Verdict := by
    intro program handled runs
    refine ⟨fun _ => by rw [program, handled]; exact verdict.running runs, fun exitCode exits => ?_⟩
    rw [program, runs] at exits
    cases exits
  cases moves with
  | arrived =>
      refine ⟨verdict.running, fun exitCode exits => ?_⟩
      obtain ⟨free, ⟨_, _, closed, _⟩ | failed⟩ := verdict.exited exitCode exits
      · exact absurd (closed.symm.trans permits) (by decide)
      · exact ⟨free, .inr failed⟩
  | closed =>
      refine ⟨verdict.running, fun exitCode exits => ?_⟩
      obtain ⟨free, ⟨zero, quiet, _, rest⟩ | failed⟩ := verdict.exited exitCode exits
      · exact ⟨free, .inl ⟨zero, quiet, rfl, rest⟩⟩
      · exact ⟨free, .inr failed⟩
  | selected => exact runs rfl rfl permits.1
  | refilled filled => exact runs rfl rfl (reads filled)
  | extended filled => exact runs rfl rfl (reads (by simp [filled]))
  | returned _ _ stepped | last _ _ _ _ stepped => exact verdict.hand stepped rfl rfl rfl
  | left closed filled empty stepped =>
      have waits := Program.waiting_of_reads stepped (.inr rfl)
      obtain ⟨quiet, accepted⟩ := verdict.running waits.1
      obtain ⟨exits, errors⟩ := (Program.step_spec stepped).2
      refine ⟨fun runs => ?_, fun exitCode same => ⟨rfl, .inl ?_⟩⟩
      · rw [exits] at runs
        cases runs
      · rw [exits] at same
        refine ⟨(Option.some.inj same).symm, ?_, closed, told.all empty permits filled, accepted⟩
        rw [errors, quiet]
        rfl
  | @passed _ event _ passing stepped =>
      have silent : Program.leaves event = none := by
        cases label <;> cases passing <;> rfl
      have results := (Program.step_spec stepped).2
      rw [Program.Results, silent] at results
      refine ⟨fun runs => ?_, fun exitCode exits => ?_⟩
      · rw [results.1] at runs
        rw [results.2]
        exact verdict.running runs
      · rw [results.1] at exits
        rw [results.2]
        exact verdict.exited exitCode exits

theorem verdict_of_reachable (reached : (machine P nCooks limit).Reachable session) :
    session.Verdict := by
  refine reached.invariant (motive := Verdict) ⟨fun _ => ⟨rfl, fun _ none' => by cases none'⟩,
    fun _ left => by cases left⟩ ?_
  intro session next label before verdict _ taken
  exact verdict.step (told_of_reachable before) (permits_of_step taken) (moves_of_step taken)

/-- The shell runs on after accepted lines, has handled each line of the input or has stopped at the
first rejected line. -/
def Outcome (session : Session P) : Prop :=
  match session.program.exitCode with
  | none => session.program.errors = [] ∧ ∀ line ∈ session.handled, Shell.rejects line = false
  | some exitCode =>
      (exitCode = 0 ∧ session.program.errors = [] ∧
        session.handled = Lines.all '\n' session.typed ∧
        ∀ line ∈ session.handled, Shell.rejects line = false) ∨
      exitCode = 84 ∧ ∃ earlier line message, session.handled = earlier ++ [line] ∧
        Shell.handleLine line = .thrown message ∧ session.program.errors = ["Error: " ++ message] ∧
        ∀ other ∈ earlier, Shell.rejects other = false

end Session

end Plazza
