import DocSignature.Text.Blank

/-!
# Integers in text

Reading an integer the way a person writes one: blanks around it, a sign, decimal digits of any
script, and single underscores between digits.
-/

namespace DocSignature.Text

/-- The zero of every set of decimal digits in Unicode 14; the other nine digits follow it. -/
def digitZeros : List Nat :=
  [48, 1632, 1776, 1984, 2406, 2534, 2662, 2790, 2918, 3046, 3174, 3302, 3430, 3558, 3664, 3792,
   3872, 4160, 4240, 6112, 6160, 6470, 6608, 6784, 6800, 6992, 7088, 7232, 7248, 42528, 43216,
   43264, 43472, 43504, 43600, 44016, 65296, 66720, 68912, 69734, 69872, 69942, 70096, 70384, 70736,
   70864, 71248, 71360, 71472, 71904, 72016, 72784, 73040, 73120, 92768, 92864, 93008, 120782,
   120792, 120802, 120812, 120822, 123200, 123632, 125264, 130032]

/-- The value of a decimal digit of any script. -/
def digitValue? (c : Char) : Option Nat :=
  (digitZeros.find? fun least => least ≤ c.toNat && c.toNat < least + 10).map (c.toNat - ·)

/-- Blanks that may surround an integer: the usual ones, except that the four separators before the
space are not among them. -/
def isIntegerBlank (c : Char) : Bool :=
  isBlank c && !(28 ≤ c.toNat && c.toNat ≤ 31)

/-- Digits with single underscores between them, after at least one digit was read. -/
def digitsAfter? : List Char → Option (List Nat)
  | [] => some []
  | '_' :: c :: cs =>
    match digitValue? c, digitsAfter? cs with
    | some d, some ds => some (d :: ds)
    | _, _ => none
  | c :: cs =>
    match digitValue? c, digitsAfter? cs with
    | some d, some ds => some (d :: ds)
    | _, _ => none

/-- One or more digits, single underscores between them. -/
def digits? : List Char → Option (List Nat)
  | [] => none
  | c :: cs =>
    match digitValue? c, digitsAfter? cs with
    | some d, some ds => some (d :: ds)
    | _, _ => none

/-- The number that a list of decimal digits writes, the most significant first. -/
def ofDigits (ds : List Nat) : Nat :=
  ds.foldl (fun n d => 10 * n + d) 0

/-- The most digits that an integer may have. -/
def maxDigits : Nat := 4300

/-- The integer that a text writes. -/
def readInteger? (cs : List Char) : Option Int :=
  let inner := ((cs.dropWhile isIntegerBlank).reverse.dropWhile isIntegerBlank).reverse
  let (negative, body) := match inner with
    | '-' :: rest => (true, rest)
    | '+' :: rest => (false, rest)
    | rest => (false, rest)
  match digits? body with
  | none => none
  | some ds =>
    if maxDigits < ds.length then none
    else if negative then some (-(ofDigits ds : Int)) else some (ofDigits ds)

end DocSignature.Text
