import LiftedPlanning.Text.Blank
import LiftedPlanning.Text.Digit
import LiftedPlanning.Text.Line

/-!
# The shapes of declarations

Recognisers for the pieces that a problem file is made of. Each takes a text apart completely or
refuses it:

* a name starts with an ASCII letter or an underscore and goes on with letters, underscores,
  minuses and decimal digits of any script;
* a declaration is a keyword of small letters, a body in parentheses and a final dot;
* a literal is a name with an optional minus before it and an optional body in parentheses after;
* a parameter is a variable and a type, separated by a colon.

Blanks are allowed between the pieces. A body runs from the first opening to the last closing
parenthesis, so it may itself contain parentheses.
-/

namespace LiftedPlanning.Declaration

open Text

/-! ## Names -/

/-- Whether a character can be the first one of a name. -/
def startsName (c : Char) : Bool :=
  c = '_' || c.isAlpha

/-- Whether a character can stand inside a name. -/
def continuesName (c : Char) : Bool :=
  startsName c || isDecimalDigit c || c = '-'

/-- The longest name at the start of a text, and what follows it. -/
def takeName? : List Char → Option (List Char × List Char)
  | [] => none
  | c :: cs =>
    if startsName c then
      some (c :: cs.takeWhile continuesName, cs.dropWhile continuesName)
    else
      none

def isName (cs : List Char) : Bool :=
  match takeName? cs with
  | some (_, []) => true
  | _ => false

/-- The name of a variable, from its text with the question mark. -/
def variableName? : List Char → Option (List Char)
  | '?' :: cs => if isName cs then some cs else none
  | _ => none

/-! ## Bodies -/

/-- What stands before the last closing parenthesis, if that is the last character. -/
def closed? (cs : List Char) : Option (List Char) :=
  match cs.reverse with
  | ')' :: rest => some rest.reverse
  | _ => none

/-- Cuts a body into its comma-separated arguments, without the blanks around them. A blank body
has no argument. -/
def arguments (body : List Char) : List (List Char) :=
  if (trim body).isEmpty then [] else (fields ',' body).map trim

def splitAtComma? (body : List Char) : Option (List Char × List Char) :=
  match body.dropWhile (· ≠ ',') with
  | [] => none
  | _ :: rest => some (body.takeWhile (· ≠ ','), rest)

/-! ## Declarations, literals and parameters -/

/-- Whether a character can stand in a keyword. -/
def isSmallLetter (c : Char) : Bool :=
  'a' ≤ c && c ≤ 'z'

/-- A declaration: its keyword and its body. -/
structure Shape where
  keyword : List Char
  body : List Char
  deriving DecidableEq, Repr

/-- The body of a declaration from what follows its keyword. -/
def declarationBody? (rest : List Char) : Option (List Char) :=
  match trimStart rest with
  | '(' :: rest =>
    match rest.reverse with
    | '.' :: rest => closed? (trimEnd rest.reverse)
    | _ => none
  | _ => none

/-- Takes a declaration apart. -/
def shape? (line : List Char) : Option Shape :=
  match line.takeWhile isSmallLetter with
  | [] => none
  | keyword => (declarationBody? (line.dropWhile isSmallLetter)).map (⟨keyword, ·⟩)

/-- A literal: its sign, the name of its predicate and its body, empty if there is none. -/
structure LiteralShape where
  negated : Bool
  predicate : List Char
  body : List Char
  deriving DecidableEq, Repr

/-- The body of a literal from what follows its name. -/
def literalBody? (rest : List Char) : Option (List Char) :=
  match trimStart rest with
  | [] => some []
  | '(' :: rest => closed? rest
  | _ => none

/-- Takes a literal apart. -/
def literalShape? (text : List Char) : Option LiteralShape := do
  let (negated, rest) := match text with
    | '-' :: rest => (true, trimStart rest)
    | _ => (false, trimStart text)
  let (predicate, rest) ← takeName? rest
  let body ← literalBody? rest
  return ⟨negated, predicate, body⟩

/-- The names of a parameter and of its type. -/
def parameterShape? : List Char → Option (List Char × List Char)
  | '?' :: text => do
    let (name, rest) ← takeName? text
    match trimStart rest with
    | ':' :: rest =>
      let type := trimStart rest
      if isName type then some (name, type) else none
    | _ => none
  | _ => none

end LiftedPlanning.Declaration
