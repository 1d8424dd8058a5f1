import Plazza.Proof.Reception.Returns
import Plazza.Proof.Shell.Verdict

namespace Plazza
open Plazza.Foundation

/-- The total of the order in a line has a value. -/
def Shell.fits (line : Parser.Text) : Bool :=
  match handleLine line with
  | .orderCallback orders => (Ledger.orderTotal orders).isSome
  | _ => true

/-- The totals and the ids of the orders in a text fit into an `int`. -/
structure Shell.Fits (text : Parser.Text) : Prop where
  few : (Lines.all '\n' text).length < 2 ^ 31
  totals : ∀ line ∈ Lines.all '\n' text, fits line = true

/-- The steps of the loop of `Shell::run`. -/
def SessionLabel.Shell {P : KitchenProcess} : SessionLabel P → Prop
  | .ready | .timeout | .read _ | .extract | .endOfFile => True
  | _ => False

/-- An order takes the next id or none. -/
theorem Ledger.nextOrderId_orderCallback {ledger next : Ledger} {orders : List PizzaOrder}
    {origin : Int} (registered : ledger.orderCallback orders = some (next, origin)) :
    next.nextOrderId = ledger.nextOrderId ∨ next.nextOrderId = ledger.nextOrderId + 1 := by
  obtain ⟨total, _, placed⟩ := Option.bind_eq_some_iff.mp registered
  split at placed
  · obtain ⟨orderId, more, same⟩ := Option.bind_eq_some_iff.mp placed
    cases same
    unfold addInt at more
    split at more <;> cases more
    exact .inr rfl
  · cases placed
    exact .inl rfl

@[simp] theorem Ledger.nextOrderId_doneCallback (ledger : Ledger) :
    ledger.doneCallback.nextOrderId = ledger.nextOrderId := by
  unfold doneCallback
  split
  · rfl
  · split <;> rfl

namespace Pizzeria

variable {P : KitchenProcess} {nCooks : Nat} {limit : Option Nat} {pizzeria next : Pizzeria P}

/-- Only a call of `shutdown` begins the end of the reception. -/
theorem ending_step {label : PizzeriaLabel P} (moved : Transition nCooks limit pizzeria label next) :
    label = .close ∧ next.call.ending = true ∨
      label ≠ .close ∧ next.call.ending = pizzeria.call.ending := by
  cases moved with
  | close => exact .inl ⟨rfl, rfl⟩
  | order _ _ _ idle | status idle | poll idle => exact .inr ⟨nofun, by rw [idle]; rfl⟩
  | skip _ chosen | apply _ _ _ _ _ chosen | erase _ chosen | spawn _ chosen | report _ _ chosen
  | destroy _ chosen => exact .inr ⟨nofun, (next_ending chosen).1⟩
  | kitchen | elapse => exact .inr ⟨nofun, rfl⟩

/-- Only an idle reception is asked to poll. -/
theorem idle_of_poll (moved : Transition nCooks limit pizzeria .poll next) :
    pizzeria.call = .idle := by
  cases moved with
  | poll idle => exact idle

/-- Only an order takes an id. -/
theorem nextOrderId_step {label : PizzeriaLabel P}
    (moved : Transition nCooks limit pizzeria label next) :
    next.ledger.nextOrderId = pizzeria.ledger.nextOrderId ∨
      (∃ orders, label = .order orders) ∧
        next.ledger.nextOrderId = pizzeria.ledger.nextOrderId + 1 := by
  cases moved with
  | order orders ledger origin _ registered =>
      exact (Ledger.nextOrderId_orderCallback registered).imp_right fun more => ⟨⟨orders, rfl⟩, more⟩
  | apply index operation call kitchen outcome =>
      left
      cases report : outcome.report <;> simp [touch, record]
  | status | poll | close | skip | erase | spawn | report | destroy | kitchen | elapse => exact .inl rfl

end Pizzeria

namespace Program

variable {P : KitchenProcess} {nCooks : Nat} {limit : Option Nat} {program next : Program P}

/-- The reception stays as it is or takes the observed step. -/
theorem moved_of_step {label : ProgramLabel P}
    (taken : program.step nCooks limit label = some next) :
    program.observe label = none ∧ next.pizzeria = program.pizzeria ∨
      ∃ call, program.observe label = some call ∧
        Pizzeria.Transition nCooks limit program.pizzeria call next.pizzeria := by
  have follows := (step_spec taken).1
  cases observed : program.observe label with
  | none =>
      rw [observed] at follows
      exact .inl ⟨rfl, follows⟩
  | some call =>
      rw [observed] at follows
      exact .inr ⟨call, rfl, Pizzeria.transition_of_step follows⟩

/-- The shell has ended exactly when the reception is in its shutdown or gone. -/
theorem exited_of_reachable (reached : (machine P nCooks limit).Reachable program) :
    program.exitCode.isSome = program.pizzeria.call.ending := by
  refine reached.invariant (motive := fun program : Program P =>
    program.exitCode.isSome = program.pizzeria.call.ending) rfl ?_
  intro program next label _ before _ taken
  have results := (step_spec taken).2
  have closes : leaves label ≠ none ↔ program.observe label = some .close := by
    cases label with
    | line text => cases told : Shell.handleLine text <;> simp [leaves, observe, told]
    | endOfInput | timeout | reception | kitchen | elapse => simp [leaves, observe]
  unfold Results at results
  obtain ⟨observed, same⟩ | ⟨call, observed, moved⟩ := moved_of_step taken <;> rw [observed] at closes
  · have stays : leaves label = none := by simpa using closes
    rw [stays] at results
    rw [results.1, before, same]
  · rcases Pizzeria.ending_step moved with ⟨rfl, ending⟩ | ⟨other, same⟩
    · obtain ⟨⟨exitCode, errors⟩, ends⟩ := Option.ne_none_iff_exists'.mp (closes.mpr rfl)
      rw [ends] at results
      rw [results.1, ending]
      rfl
    · have stays : leaves label = none := by simpa [other] using closes
      rw [stays] at results
      rw [results.1, before, same]

/-- Only a line takes an id. -/
theorem nextOrderId_step {label : ProgramLabel P}
    (taken : program.step nCooks limit label = some next) :
    next.pizzeria.ledger.nextOrderId = program.pizzeria.ledger.nextOrderId ∨
      (∃ text, label = .line text) ∧
        next.pizzeria.ledger.nextOrderId = program.pizzeria.ledger.nextOrderId + 1 := by
  obtain ⟨_, same⟩ | ⟨call, observed, moved⟩ := moved_of_step taken
  · exact .inl (by rw [same])
  · refine (Pizzeria.nextOrderId_step moved).imp_right fun ⟨⟨orders, order⟩, more⟩ => ⟨?_, more⟩
    subst order
    cases label with
    | line text => exact ⟨text, rfl⟩
    | endOfInput | timeout | reception | kitchen | elapse => cases observed

/-- A waiting shell handles every line whose order fits. -/
theorem step_line (nCooks : Nat) (limit : Option Nat) (waits : program.Waiting) {line : Parser.Text}
    (fits : Shell.fits line = true)
    (low : 0 ≤ program.pizzeria.ledger.nextOrderId)
    (high : program.pizzeria.ledger.nextOrderId + 1 < 2 ^ 31) :
    ∃ next, program.step nCooks limit (.line line) = some next := by
  refine Option.isSome_iff_exists.mp ?_
  simp only [step, if_pos waits]
  unfold Shell.fits at fits
  cases told : Shell.handleLine line with
  | ignored => rfl
  | statusCallback => simp [advance, Pizzeria.step, waits.2]
  | thrown => simp [leave, advance, Pizzeria.step, waits.2]
  | orderCallback orders =>
      rw [told] at fits
      obtain ⟨total, totals⟩ := Option.isSome_iff_exists.mp fits
      have id : addInt program.pizzeria.ledger.nextOrderId 1 =
          some (program.pizzeria.ledger.nextOrderId + 1) := if_pos (by omega)
      simp only [advance, Pizzeria.step, if_pos waits.2, Ledger.orderCallback, totals, id,
        Option.bind_eq_bind, Option.bind_some, Option.isSome_map]
      split <;> rfl

end Program

namespace Session

section Process

variable {P : KitchenProcess} {nCooks : Nat} {limit : Option Nat} {session next : Session P}

/-- A session is a run of its reception. -/
theorem refines_pizzeria (P : KitchenProcess) (nCooks : Nat) (limit : Option Nat) :
    Machine.Refinement (machine P nCooks limit) (Pizzeria.machine P nCooks limit)
      (fun session => session.program.pizzeria)
      fun session label => (session.observe label).bind session.program.observe :=
  (refines_program P nCooks limit).trans (Program.refines_pizzeria P nCooks limit)

/-- Each id belongs to a handled line. -/
theorem nextOrderId_of_reachable (reached : (machine P nCooks limit).Reachable session) :
    0 ≤ session.program.pizzeria.ledger.nextOrderId ∧
      session.program.pizzeria.ledger.nextOrderId ≤ session.handled.length := by
  refine reached.invariant (motive := fun session : Session P =>
    0 ≤ session.program.pizzeria.ledger.nextOrderId ∧
      session.program.pizzeria.ledger.nextOrderId ≤ session.handled.length) ⟨le_rfl, le_rfl⟩ ?_
  intro session next label _ before _ taken
  cases moves_of_step taken with
  | arrived | closed | selected | refilled | extended => exact before
  | returned _ _ stepped | last _ _ _ _ stepped =>
      have bound := Program.nextOrderId_step stepped
      simp only [List.length_append, List.length_singleton]
      omega
  | left _ _ _ stepped =>
      obtain same | ⟨⟨_, other⟩, _⟩ := Program.nextOrderId_step stepped
      · simpa only [same] using before
      · cases other
  | @passed _ event _ passing stepped =>
      obtain same | ⟨⟨_, rfl⟩, _⟩ := Program.nextOrderId_step stepped
      · simpa only [same] using before
      · cases label <;> cases passing

/-- The line that is about to be handled is one of the text. -/
theorem Told.hands (told : session.Told) {line : Parser.Text} (reads : session.reading = some line)
    (ends : (∃ rest, session.buffer = '\n' :: rest) ∨
      session.buffer = [] ∧ session.kernel = [] ∧ line ≠ []) :
    session.handled ++ [line] <+: Lines.all '\n' session.typed := by
  obtain ⟨consumed, typed, cut⟩ := told
  rw [reads] at cut
  rcases ends with ⟨rest, buffers⟩ | ⟨empty, drained, full⟩
  · rcases cut with cut | ⟨⟨empty, _⟩, _⟩
    · have longer : session.handled ++ [line] = Lines.lines '\n' (consumed ++ ['\n']) := by
        rw [Lines.lines, Lines.split_concat, cut, Lines.feed_mark]
        rfl
      have text : session.typed = consumed ++ ['\n'] ++ (rest ++ session.kernel) := by
        rw [typed, buffers, List.append_assoc]
        rfl
      rw [longer, text]
      exact Lines.lines_prefix_all
    · rw [buffers] at empty
      cases empty
  · rcases cut with cut | ⟨_, none', _⟩
    · rw [typed, empty, drained, List.append_nil, List.append_nil, Lines.all, Lines.lines, cut,
        if_neg (by simpa using full)]
      exact List.prefix_rfl
    · exact absurd none' full

/-- The steps that the shell needs at most until it ends. -/
def remaining (session : Session P) : Nat :=
  4 * session.kernel.length + 3 * session.buffer.length +
    match session.reading with
    | none => 1
    | some [] => 0
    | some (_ :: _) => 2

/-- Every step of the shell on a closed input comes closer to its end. -/
theorem remaining_step {label : SessionLabel P} (closed : session.closed = true)
    (permits : session.Permits label) (moves : session.Moves nCooks limit label next) :
    next.program.exitCode ≠ none ∨ next.remaining < session.remaining ∨
      next.remaining = session.remaining ∧ ¬label.Shell := by
  cases moves with
  | arrived => exact absurd (closed.symm.trans permits) (by decide)
  | closed => exact .inr (.inr ⟨rfl, id⟩)
  | selected free =>
      right; left
      simp [remaining, free]
  | @refilled count reads empty =>
      right; left
      obtain ⟨some', inside⟩ := permits
      simp only [remaining, empty, List.length_take, List.length_drop, List.length_nil,
        Nat.min_eq_left inside]
      omega
  | @extended line rest character reads buffers =>
      right; left
      cases line with
      | nil =>
          simp only [remaining, reads, buffers, List.nil_append, List.length_cons]
          omega
      | cons =>
          simp only [remaining, reads, buffers, List.cons_append, List.length_cons]
          omega
  | @returned line rest _ reads buffers _ =>
      right; left
      cases line with
      | nil =>
          simp only [remaining, reads, buffers, List.length_cons]
          omega
      | cons =>
          simp only [remaining, reads, buffers, List.length_cons]
          omega
  | @last line _ _ reads full =>
      right; left
      cases line with
      | nil => exact absurd rfl full
      | cons => simp [remaining, reads]
  | left _ _ _ stepped =>
      left
      rw [(Program.step_spec stepped).2.1]
      exact nofun
  | @passed _ event _ passing =>
      right; right
      cases label with
      | timeout => exact absurd (closed.symm.trans permits) (by decide)
      | reception | kitchen | elapse => exact ⟨rfl, id⟩
      | arrive | close | ready | read | extract | endOfFile => cases passing

/-- A closed input stays closed, and no text arrives. -/
theorem closed_step {label : SessionLabel P} (closed : session.closed = true)
    (permits : session.Permits label) (moves : session.Moves nCooks limit label next) :
    next.closed = true ∧ next.typed = session.typed := by
  cases moves with
  | arrived => exact absurd (closed.symm.trans permits) (by decide)
  | closed => exact ⟨rfl, rfl⟩
  | selected | refilled | extended | returned | last | left | passed => exact ⟨closed, rfl⟩

/-- A waiting shell has a step on a closed input. -/
theorem enables_shell (reached : (machine P nCooks limit).Reachable session)
    (closed : session.closed = true) (waits : session.program.Waiting)
    (fits : Shell.Fits session.typed) :
    (machine P nCooks limit).Enables SessionLabel.Shell session := by
  have told := told_of_reachable reached
  obtain ⟨low, high⟩ := nextOrderId_of_reachable reached
  have hands : ∀ {line}, session.reading = some line → ((∃ rest, session.buffer = '\n' :: rest) ∨
      session.buffer = [] ∧ session.kernel = [] ∧ line ≠ []) →
      ∃ program, session.program.step nCooks limit (.line line) = some program := by
    intro line reads ends
    have here := told.hands reads ends
    have short := here.length_le
    have few := fits.few
    rw [List.length_append, List.length_singleton] at short
    exact Program.step_line nCooks limit waits
      (fits.totals line (here.subset (List.mem_append_right _ (List.mem_singleton_self _)))) low
      (by omega)
  have takes : ∀ label : SessionLabel P, label.Shell →
      (session.step nCooks limit label).isSome = true →
      (machine P nCooks limit).Enables SessionLabel.Shell session := by
    intro label own some'
    obtain ⟨next, taken⟩ := Option.isSome_iff_exists.mp some'
    exact ⟨label, next, own, taken⟩
  cases reads : session.reading with
  | none => exact takes .ready trivial (by simp [step, waits, reads, closed])
  | some line =>
      cases buffers : session.buffer with
      | cons character rest =>
          by_cases ends : character = '\n'
          · obtain ⟨program, stepped⟩ := hands reads (.inl ⟨rest, by rw [buffers, ends]⟩)
            exact takes .extract trivial
              (by simp [step, reads, buffers, ends, hand, advance, stepped])
          · exact takes .extract trivial (by simp [step, reads, buffers, ends])
      | nil =>
          cases kernel : session.kernel with
          | cons character rest =>
              exact takes (.read 1) trivial (by simp [step, reads, buffers, kernel])
          | nil =>
              cases line with
              | nil =>
                  have leaves : (session.program.step nCooks limit .endOfInput).isSome = true := by
                    simp [Program.step, waits, Program.leave, Program.advance, Pizzeria.step, waits.2]
                  exact takes .endOfFile trivial
                    (by simpa [step, closed, kernel, buffers, reads, advance] using leaves)
              | cons =>
                  obtain ⟨program, stepped⟩ := hands reads (.inr ⟨buffers, kernel, List.cons_ne_nil _ _⟩)
                  exact takes .endOfFile trivial
                    (by simp [step, closed, kernel, buffers, reads, hand, advance, stepped])

/-- A shell that has ended has no step. -/
theorem disabled_of_exited (reached : (machine P nCooks limit).Reachable session)
    (ended : session.program.pizzeria.call.ending = true) :
    ¬(machine P nCooks limit).Enables SessionLabel.Shell session := by
  rintro ⟨label, next, own, taken⟩
  have exits := (Program.exited_of_reachable ((refines_program P nCooks limit).reachable
    (fun _ _ => trivial) reached)).trans ended
  obtain ⟨code, same⟩ := Option.isSome_iff_exists.mp exits
  have free := ((verdict_of_reachable reached).exited code same).1
  have permits := permits_of_step taken
  cases moves_of_step taken with
  | arrived | closed => cases own
  | selected => exact absurd (same.symm.trans permits.1) nofun
  | refilled reads => exact reads free
  | extended reads | returned reads | last _ reads | left _ reads =>
      rw [free] at reads
      cases reads
  | @passed _ event _ passing stepped =>
      cases label <;> cases own <;> cases passing
      obtain ⟨silent, _⟩ | ⟨call, observed, moved⟩ := Program.moved_of_step stepped
      · cases silent
      · cases observed
        rw [Pizzeria.idle_of_poll moved] at ended
        cases ended

/-- The exit code that a text ends with. -/
def exitCode (text : Parser.Text) : Nat :=
  if (Lines.all '\n' text).any Shell.rejects then 84 else 0

end Process

variable {nCooks : Nat} {limit : Option Nat}

/-- The shell gets its turns, and so do the reception and the kitchens. -/
structure Scheduled
    (execution : (machine (KitchenWorker.process nCooks limit) nCooks limit).Execution) : Prop where
  shell : execution.Fair SessionLabel.Shell
  program : Pizzeria.Scheduled
    (execution.map (refines_pizzeria (KitchenWorker.process nCooks limit) nCooks limit))

/-- A run that ends with the destruction of the reception is a scheduled session. -/
theorem scheduled_of_destroyed
    {labels : List (SessionLabel (KitchenWorker.process nCooks limit))}
    {last : Session (KitchenWorker.process nCooks limit)}
    (ran : (machine (KitchenWorker.process nCooks limit) nCooks limit).run (fun _ _ => true)
      (machine (KitchenWorker.process nCooks limit) nCooks limit).initial labels = some last)
    (destroyed : last.program.pizzeria.call = .destroyed) :
    Scheduled (Machine.Execution.resting
      (machine (KitchenWorker.process nCooks limit) nCooks limit) labels) := by
  have ends : ∀ {moment}, labels.length ≤ moment → (Machine.Execution.resting
      (machine (KitchenWorker.process nCooks limit) nCooks limit) labels).state moment = last :=
    Machine.Execution.state_resting ran
  have gone : ∀ moment, labels.length ≤ moment → ((Machine.Execution.resting
      (machine (KitchenWorker.process nCooks limit) nCooks limit) labels).map
        (refines_pizzeria (KitchenWorker.process nCooks limit) nCooks limit)).state moment =
      last.program.pizzeria := fun _ late => congrArg (fun session => session.program.pizzeria) (ends late)
  constructor
  · refine Machine.Execution.fair_resting ran (disabled_of_exited ?_ (by rw [destroyed]; rfl))
    exact ends le_rfl ▸ Machine.Execution.reachable _ labels.length
  · refine Pizzeria.scheduled_of_exited labels.length ?_ fun moment late id spawned =>
      Pizzeria.exited_of_destroyed (Machine.Execution.reachable _ moment)
        (by rw [gone moment late, destroyed]) spawned
    exact Machine.Execution.fair_of_disabled fun moment (late : labels.length ≤ moment) =>
      (gone moment late).symm ▸ Pizzeria.disabled_of_destroyed destroyed

section Scheduled

variable {execution : (machine (KitchenWorker.process nCooks limit) nCooks limit).Execution}

variable (scheduled : Scheduled execution) (roomy : Roomy nCooks limit)
include scheduled roomy

/-- The shell ends after the end of its input. -/
theorem leadsTo_exited {text : Parser.Text} (fits : Shell.Fits text) :
    execution.LeadsTo (fun session => session.closed = true ∧ session.typed = text)
      fun session => session.program.exitCode ≠ none := by
  have works : execution.LeadsTo
      (fun session => (session.closed = true ∧ session.typed = text) ∧
        session.program.exitCode = none)
      fun session => session.program.exitCode ≠ none := by
    refine Machine.Execution.leadsTo_of_rank scheduled.shell remaining ?_ ?_
    · rintro session next label _ ⟨⟨closed, typed⟩, _⟩ taken
      have permits := permits_of_step taken
      have moves := moves_of_step taken
      by_cases runs : next.program.exitCode = none
      · obtain ⟨still, same⟩ := closed_step closed permits moves
        exact .inr ⟨⟨⟨still, same.trans typed⟩, runs⟩,
          (remaining_step closed permits moves).resolve_left (not_not_intro runs)⟩
      · exact .inl runs
    · intro moment rests
      obtain ⟨later, late, returned⟩ := Pizzeria.leadsTo_returned scheduled.program roomy moment trivial
      obtain ⟨⟨closed, typed⟩, runs⟩ := (rests later late).1
      refine ⟨later, late, enables_shell (execution.reachable later) closed ⟨runs, ?_⟩
        (typed.symm ▸ fits)⟩
      -- a running shell has not begun the shutdown of its reception
      refine returned.resolve_right fun destroyed => ?_
      have ended := Program.exited_of_reachable ((refines_program _ nCooks limit).reachable
        (fun _ _ => trivial) (execution.reachable later))
      rw [runs, show (execution.state later).program.pizzeria.call = .destroyed from destroyed] at ended
      cases ended
  intro moment input
  by_cases runs : (execution.state moment).program.exitCode = none
  · exact works moment ⟨input, runs⟩
  · exact ⟨moment, le_rfl, runs⟩

end Scheduled

end Session

end Plazza
