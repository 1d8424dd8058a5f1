import Plazza.Construction.Pizza
import Plazza.Foundation.Regex

namespace Plazza.Parser

open Foundation

abbrev Text := List Char

def kEmptyOrderSegment := "empty order segment"
def kEmptyOrder := "empty order"
def kInvalidToken := "invalid token: expected TYPE SIZE NUMBER"
def kUnknownPizzaType := "unknown pizza type: "
def kUnknownPizzaSize := "unknown pizza size: "
def kInvalidNumberFormatExpected := "invalid number format (expected x<n>): "
def kQuantityMustBePositive := "quantity must be >= 1: "
def kInvalidNumberFormat := "invalid number format: "

def toLower (str : Text) : Text := str.map Char.toLower

/-- The whitespace characters of the C locale. -/
def isSpace (character : Char) : Bool :=
  character ∈ [' ', '\t', '\n', '\x0b', '\x0c', '\r']

/-- The characters that the blank checks skip. -/
def isBlank (character : Char) : Bool := character ∈ [' ', '\t', '\r', '\n']

/-- The flag `icase` tries both cases of a character. -/
def icase (accepts : Char → Bool) (character : Char) : Bool :=
  accepts character.toLower || accepts character.toUpper

def range (first last : Char) (character : Char) : Bool := first ≤ character && character ≤ last

def literal (text : String) : Regex Char :=
  .sequence (text.toList.map fun letter => icase (· == letter))

/-- The subexpression `\s*`. -/
def spaces : Regex Char := .star true (.set isSpace)

/-- The characters of `[A-Za-z]`. -/
def letter : Char → Bool := icase fun character =>
  range 'A' 'Z' character || range 'a' 'z' character

/-- The subexpression `[A-Za-z]+?`. -/
def typePattern : Regex Char := .seq (.set letter) (.star false (.set letter))

/-- The subexpression `XXL|XL|S|M|L`. -/
def sizePattern : Regex Char :=
  .alt (literal "XXL") <| .alt (literal "XL") <| .alt (literal "S") <|
    .alt (literal "M") (literal "L")

/-- The subexpression `x[1-9][0-9]*`. -/
def numberPattern : Regex Char :=
  .seq (literal "x") <| .seq (.set (icase (range '1' '9'))) <|
    .star true (.set (icase (range '0' '9')))

def pattern : Regex Char :=
  .seq .bol <| .seq spaces <| .seq (.group 1 typePattern) <| .seq spaces <|
    .seq (.group 2 sizePattern) <| .seq spaces <| .seq (.group 3 numberPattern) <|
      .seq spaces .eol

def parseType (token : Text) : Except String PizzaType :=
  let low := toLower token
  if low = "regina".toList then .ok .regina
  else if low = "margarita".toList then .ok .margarita
  else if low = "americana".toList then .ok .americana
  else if low = "fantasia".toList then .ok .fantasia
  else .error (kUnknownPizzaType ++ String.ofList token)

def parseSize (token : Text) : Except String PizzaSize :=
  let low := toLower token
  if low = "s".toList then .ok .s
  else if low = "m".toList then .ok .m
  else if low = "l".toList then .ok .l
  else if low = "xl".toList then .ok .xl
  else if low = "xxl".toList then .ok .xxl
  else .error (kUnknownPizzaSize ++ String.ofList token)

/-- The conversion skips whitespace, takes a sign and reads the longest run of digits. It fails
without a digit and above the range, and a minus sign negates the value modulo the range. -/
def stoul (text : Text) : Option Nat :=
  let trimmed := text.dropWhile isSpace
  let negative := trimmed.head? = some '-'
  let numeral := if negative ∨ trimmed.head? = some '+' then trimmed.tail else trimmed
  let digits := numeral.takeWhile Char.isDigit
  let value := Nat.ofDigitChars 10 digits 0
  if digits.isEmpty ∨ 2 ^ 64 ≤ value then none
  else some (if negative then (2 ^ 64 - value) % 2 ^ 64 else value)

def parseNumber (token : Text) : Except String Nat :=
  let low := toLower token
  if low.head? ≠ some 'x' then .error (kInvalidNumberFormatExpected ++ String.ofList token)
  else if ¬low[1]?.any (range '1' '9') then
    .error (kQuantityMustBePositive ++ String.ofList token)
  else if ¬(low.drop 2).all Char.isDigit then
    .error (kInvalidNumberFormat ++ String.ofList token)
  else
    match stoul (low.drop 1) with
    | none => .error (kInvalidNumberFormat ++ String.ofList token)
    | some value => .ok value

def parseLine (line : Text) : Except String PizzaOrder :=
  match Regex.regexMatch pattern line with
  | none => .error kInvalidToken
  | some found => do
      let type ← parseType (found.str 1)
      let size ← parseSize (found.str 2)
      let quantity ← parseNumber (found.str 3)
      return ⟨type, size, quantity⟩

/-- The loop over `getline` ends a segment at each separator. The end of the stream ends the last
segment unless it is empty. -/
def segments (segment : Text) : Text → List Text
  | [] => if segment.isEmpty then [] else [segment]
  | character :: rest =>
      if character = ';' then segment :: segments [] rest
      else segments (segment ++ [character]) rest

def parseSegment (segment : Text) : Except String PizzaOrder :=
  if segment.all isBlank then .error kEmptyOrderSegment else parseLine segment

def parse (line : Text) : Except String (List PizzaOrder) :=
  if line.reverse.find? (fun character => !isBlank character) = some ';' then
    .error kEmptyOrderSegment
  else do
    let orders ← (segments [] line).mapM parseSegment
    if orders.isEmpty then .error kEmptyOrder else return orders

end Plazza.Parser
