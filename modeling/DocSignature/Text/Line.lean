import DocSignature.Text.Cut

/-!
# Lines

Lines are counted and cut at line feeds only. Reading a file first turns its other line ends into
line feeds; a message that must stay on one line is cut at any of the ten break characters.
-/

namespace DocSignature.Text

/-- The lines of a text; one without a line feed is a single line. -/
def lines (cs : List Char) : List (List Char) :=
  cut '\n' cs

/-- Lines put together with a line feed between them. -/
def unlines (ls : List (List Char)) : List Char :=
  ['\n'].intercalate ls

/-- Offsets just after the line feeds of a text that starts at offset `pos`. -/
def startsAfter (pos : Nat) : List Char → List Nat
  | [] => []
  | c :: cs => if c = '\n' then (pos + 1) :: startsAfter (pos + 1) cs else startsAfter (pos + 1) cs

/-- The offset at which each line starts. -/
def lineStarts (cs : List Char) : List Nat :=
  0 :: startsAfter 0 cs

/-- Holds of a character that ends a line of a message. -/
def isLineBreak (c : Char) : Bool :=
  let n := c.toNat
  (10 ≤ n && n ≤ 13) || (28 ≤ n && n ≤ 30) || n == 0x85 || n == 0x2028 || n == 0x2029

/-- A message up to its first line break. -/
def firstLine (cs : List Char) : List Char :=
  cs.takeWhile (!isLineBreak ·)

/-- The text with every carriage return, alone or before a line feed, turned into a line feed. -/
def unifyLineEnds : List Char → List Char
  | [] => []
  | '\r' :: '\n' :: cs => '\n' :: unifyLineEnds cs
  | c :: cs => (if c = '\r' then '\n' else c) :: unifyLineEnds cs

end DocSignature.Text
