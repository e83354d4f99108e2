/-!
# Cutting a text

A text cut at every occurrence of one character.
-/

namespace DocSignature.Text

/-- The parts of a text between the occurrences of `mark`; there is always at least one. -/
def cut (mark : Char) : List Char → List (List Char)
  | [] => [[]]
  | c :: cs =>
    if c = mark then [] :: cut mark cs
    else match cut mark cs with
      | [] => [[c]]
      | part :: rest => (c :: part) :: rest

end DocSignature.Text
