/-!
# Lines and fields

A text is cut into lines at its newlines. A return right before a newline belongs to the line end,
a return anywhere else to the line; what follows the last newline is a line unless it is empty. The
same rule is used on characters and on bytes.
-/

namespace LiftedPlanning.Text

variable {α : Type}

/-- Cuts a text at every separator; the fields are as many as the separators, and one more. -/
def fieldsBy (isSeparator : α → Bool) : List α → List (List α)
  | [] => [[]]
  | x :: xs =>
    if isSeparator x then
      [] :: fieldsBy isSeparator xs
    else
      match fieldsBy isSeparator xs with
      | [] => [[x]]
      | field :: rest => (x :: field) :: rest

/-- The fields between the occurrences of one separator. -/
def fields (separator : Char) (cs : List Char) : List (List Char) :=
  fieldsBy (· == separator) cs

variable [DecidableEq α]

/-- Cuts a text into lines. -/
def linesAt (feed carriage : α) : List α → List (List α)
  | [] => []
  | x :: xs =>
    if x = feed then
      [] :: linesAt feed carriage xs
    else if x = carriage ∧ xs.head? = some feed then
      linesAt feed carriage xs
    else
      match linesAt feed carriage xs with
      | [] => [[x]]
      | line :: rest => (x :: line) :: rest

def lines (cs : List Char) : List (List Char) :=
  linesAt '\n' '\r' cs

/-- The text that bytes stand for in UTF-8, if they do stand for one. -/
def decode? (bytes : List UInt8) : Option (List Char) :=
  (String.fromUTF8? ⟨bytes.toArray⟩).map String.toList

/-- The bytes that a text is stored as, in UTF-8. -/
def encode (cs : List Char) : List UInt8 :=
  (String.ofList cs).toUTF8.data.toList

/-- The lines of a stored text; a line that is no UTF-8 is `none`. -/
def storedLines (bytes : List UInt8) : List (Option (List Char)) :=
  (linesAt 10 13 bytes).map decode?

end LiftedPlanning.Text
