/-!
# Blank characters

The characters that separate words, and the operations that drop them. Everything in the library
that skips, trims or splits at blanks uses this one class.
-/

namespace DocSignature.Text

/-- Tab to carriage return, the four separators before the space, the space itself, and the blanks
of Unicode outside ASCII. -/
def isBlank (c : Char) : Bool :=
  let n := c.toNat
  (9 ≤ n && n ≤ 13) || (28 ≤ n && n ≤ 32) || n == 0x85 || n == 0xA0 || n == 0x1680 ||
    (0x2000 ≤ n && n ≤ 0x200A) || n == 0x2028 || n == 0x2029 || n == 0x202F || n == 0x205F ||
    n == 0x3000

/-- The text without the blanks it starts with. -/
def trimLeft (cs : List Char) : List Char :=
  cs.dropWhile isBlank

/-- The text without the blanks it ends with. -/
def trimRight (cs : List Char) : List Char :=
  (cs.reverse.dropWhile isBlank).reverse

/-- The text without blanks at either end. -/
def trim (cs : List Char) : List Char :=
  trimRight (trimLeft cs)

/-- Holds of a text of blanks only, the empty one included. -/
def allBlank (cs : List Char) : Bool :=
  cs.all isBlank

/-- The first word, when the text has one. -/
def firstWord? (cs : List Char) : Option (List Char) :=
  match (trimLeft cs).takeWhile (!isBlank ·) with
  | [] => none
  | word => some word

/-- The last word, when the text has one. -/
def lastWord? (cs : List Char) : Option (List Char) :=
  (firstWord? cs.reverse).map List.reverse

/-- Skips a run of blanks that must not be empty. -/
def blanks? : List Char → Option (List Char)
  | c :: cs => if isBlank c then some (trimLeft cs) else none
  | [] => none

/-- What follows `word` when the text starts with it. -/
def after? : (word : List Char) → List Char → Option (List Char)
  | [], cs => some cs
  | w :: word, c :: cs => if w = c then after? word cs else none
  | _ :: _, [] => none

end DocSignature.Text
