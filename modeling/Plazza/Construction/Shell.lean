import Plazza.Construction.Parser
import Plazza.Construction.Pizzeria

namespace Plazza
open Plazza.Foundation

namespace Shell

/-- The shell drops these characters at the end of a line. -/
def isTrailing (character : Char) : Bool := character ∈ [' ', '\r', '\t']

def trimmed (line : Parser.Text) : Parser.Text := (line.reverse.dropWhile isTrailing).reverse

/-- The shell hands a line to one of its callbacks, to none of them or throws. -/
inductive Handling where
  | ignored
  | statusCallback
  | orderCallback (orders : List PizzaOrder)
  | thrown (message : String)

/-- The handler of the parser exceptions throws again with a prefix. -/
def handleLine (line : Parser.Text) : Handling :=
  if (trimmed line).isEmpty then .ignored
  else if trimmed line = "status".toList then .statusCallback
  else
    match Parser.parse (trimmed line) with
    | .ok orders => .orderCallback orders
    | .error message => .thrown ("error: " ++ message)

end Shell

/-- The program is the reception with the shell around it. The exit code is known once `main` has
left the shell, and the errors are the lines that it has printed. -/
structure Program (P : KitchenProcess) where
  pizzeria : Pizzeria P
  exitCode : Option Nat
  errors : List String

/-- The user types a line or ends the input, and `select` times out without any. -/
inductive ProgramLabel (P : KitchenProcess) where
  | line (text : Parser.Text)
  | endOfInput
  | timeout
  | reception
  | kitchen (id : Nat) (label : P.Label)
  | elapse (duration : Nat)

namespace Program

variable {P : KitchenProcess}

/-- The shell waits in `select` while it runs and none of its callbacks does. -/
def Waiting (program : Program P) : Prop :=
  program.exitCode = none ∧ program.pizzeria.call = .idle

instance (program : Program P) : Decidable program.Waiting := inferInstanceAs (Decidable (_ ∧ _))

/-- The program moves as its reception does. -/
def advance (nCooks : Nat) (limit : Option Nat) (program : Program P) (label : PizzeriaLabel P) :
    Option (Program P) :=
  (program.pizzeria.step nCooks limit label).map fun pizzeria => { program with pizzeria }

/-- The end of `main` destroys the load balancer, which shuts the kitchens down. -/
def leave (nCooks : Nat) (limit : Option Nat) (program : Program P) (exitCode : Nat)
    (errors : List String) : Option (Program P) :=
  { program with exitCode := some exitCode, errors := program.errors ++ errors }.advance nCooks limit
    .close

/-- An exception of the shell reaches the handler of `main`. -/
def step (nCooks : Nat) (limit : Option Nat) (program : Program P) :
    ProgramLabel P → Option (Program P)
  | .line text =>
      if program.Waiting then
        match Shell.handleLine text with
        | .ignored => some program
        | .statusCallback => program.advance nCooks limit .status
        | .orderCallback orders => program.advance nCooks limit (.order orders)
        | .thrown message => program.leave nCooks limit 84 ["Error: " ++ message]
      else none
  | .endOfInput => if program.Waiting then program.leave nCooks limit 0 [] else none
  | .timeout => if program.Waiting then program.advance nCooks limit .poll else none
  | .reception => program.advance nCooks limit .reception
  | .kitchen id label => program.advance nCooks limit (.kitchen id label)
  | .elapse duration => program.advance nCooks limit (.elapse duration)

def machine (P : KitchenProcess) (nCooks : Nat) (limit : Option Nat) :
    Machine (Program P) (ProgramLabel P) where
  initial := ⟨Pizzeria.initial P, none, []⟩
  step := step nCooks limit

end Program

end Plazza
