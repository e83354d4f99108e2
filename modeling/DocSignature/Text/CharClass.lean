/-!
# Classes of code points

A class of code points is written as its turning points: the increasing list of the places where
membership starts and stops. A code point belongs to the class when an odd number of turning points
lie at or below it.
-/

namespace DocSignature.Text

/-- Membership in the class with the given turning points. -/
def belongs : (turns : List Nat) → Nat → Bool
  | [], _ => false
  | [start], n => start ≤ n
  | start :: stop :: rest, n =>
    if n < start then false else if n < stop then true else belongs rest n

end DocSignature.Text
