import Plazza.Construction.Shell
import Plazza.Foundation.Lines

namespace Plazza
open Plazza.Foundation

/-- A session is the program with the two buffers of its input. The text is in the kernel until a
read takes it to the buffer of the stream, from which `getline` takes its line. The fields `typed`
and `handled` are a history of the text that has arrived and of the lines given to `handleLine`. -/
structure Session (P : KitchenProcess) where
  program : Program P
  kernel : Parser.Text
  closed : Bool
  buffer : Parser.Text
  /-- The line that `getline` has so far, while it runs. -/
  reading : Option Parser.Text
  typed : Parser.Text
  handled : List Parser.Text

inductive SessionLabel (P : KitchenProcess) where
  | arrive (text : Parser.Text)
  | close
  | ready
  | timeout
  | read (count : Nat)
  | extract
  | endOfFile
  | reception
  | kitchen (id : Nat) (label : P.Label)
  | elapse (duration : Nat)

namespace Session

variable {P : KitchenProcess}

/-- The rest of the program moves and no input does. -/
def advance (nCooks : Nat) (limit : Option Nat) (session : Session P) (label : ProgramLabel P) :
    Option (Session P) :=
  (session.program.step nCooks limit label).map fun program => { session with program }

/-- `getline` returns a line and the shell handles it. -/
def hand (nCooks : Nat) (limit : Option Nat) (session : Session P) (line : Parser.Text) :
    Option (Session P) :=
  { session with reading := none, handled := session.handled ++ [line] }.advance nCooks limit
    (.line line)

/-- `select` sees the kernel only. One read takes any part of what the kernel has, when the buffer
of the stream is empty. -/
def step (nCooks : Nat) (limit : Option Nat) (session : Session P) :
    SessionLabel P → Option (Session P)
  | .arrive text =>
      if session.closed then none
      else some { session with kernel := session.kernel ++ text, typed := session.typed ++ text }
  | .close => some { session with closed := true }
  | .ready =>
      if session.program.Waiting ∧ session.reading = none ∧ (session.kernel ≠ [] ∨ session.closed)
      then some { session with reading := some [] }
      else none
  | .timeout =>
      if session.reading = none ∧ session.kernel = [] ∧ session.closed = false then
        session.advance nCooks limit .timeout
      else none
  | .read count =>
      if session.reading ≠ none ∧ session.buffer = [] ∧ 0 < count ∧ count ≤ session.kernel.length then
        some { session with
          buffer := session.kernel.take count
          kernel := session.kernel.drop count }
      else none
  | .extract =>
      match session.reading, session.buffer with
      | some line, character :: rest =>
          if character = '\n' then { session with buffer := rest }.hand nCooks limit line
          else some { session with reading := some (line ++ [character]), buffer := rest }
      | _, _ => none
  | .endOfFile =>
      if session.closed ∧ session.kernel = [] ∧ session.buffer = [] then
        match session.reading with
        | none => none
        | some [] => { session with reading := none }.advance nCooks limit .endOfInput
        | some line => session.hand nCooks limit line
      else none
  | .reception => session.advance nCooks limit .reception
  | .kitchen id label => session.advance nCooks limit (.kitchen id label)
  | .elapse duration => session.advance nCooks limit (.elapse duration)

def machine (P : KitchenProcess) (nCooks : Nat) (limit : Option Nat) :
    Machine (Session P) (SessionLabel P) where
  initial := ⟨(Program.machine P nCooks limit).initial, [], false, [], none, [], []⟩
  step := step nCooks limit

end Session

end Plazza
