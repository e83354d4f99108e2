/-!
# Binary floating point numbers

Numbers of 53 significant bits, the way a decimal numeral is rounded to one, and the shortest
decimal numeral that is rounded back to it. All arithmetic is exact.
-/

namespace DocSignature.Number

/-- A floating point number: `finite negative m e` is `m · 2^e`, with the sign kept for zero. -/
inductive Binary64 where
  | nan
  | infinite (negative : Bool)
  | finite (negative : Bool) (mantissa : Nat) (exponent : Int)

/-- The quotient rounded to the nearest integer, a half to the even one. -/
def roundDiv (num den : Nat) : Nat :=
  let q := num / den
  let r := num % den
  if 2 * r < den then q else if den < 2 * r then q + 1 else if q % 2 = 0 then q else q + 1

/-- `base^k` as a factor above or below a fraction bar. -/
def scaleBy (base : Nat) (k : Int) : Nat × Nat :=
  if 0 ≤ k then (Nat.pow base k.toNat, 1) else (1, Nat.pow base (-k).toNat)

/-- The least exponent of a finite number. -/
def leastExponent : Int := -1074

/-- The least mantissa of 53 bits, `2^52`. -/
def leastMantissa : Nat := 4503599627370496

/-- The number nearest to `num / den`, neither of which is zero. -/
def Binary64.ofFraction (negative : Bool) (num den : Nat) : Binary64 :=
  let size : Int := (Nat.log2 num : Int) - Nat.log2 den
  let guess := max (size - 53) leastExponent
  let quotientAt (e : Int) : Nat × Nat :=
    let (below, above) := scaleBy 2 e
    (num * above, den * below)
  let (n, d) := quotientAt guess
  let e := if 2 * leastMantissa ≤ n / d then guess + 1 else guess
  let (n, d) := quotientAt e
  let m := roundDiv n d
  let (m, e) := if m = 2 * leastMantissa then (leastMantissa, e + 1) else (m, e)
  if 971 < e then .infinite negative else .finite negative m e

/-- The number nearest to `digits · 10^exponent`. -/
def Binary64.ofDecimal (negative : Bool) (digits : Nat) (exponent : Int) : Binary64 :=
  if digits = 0 then .finite negative 0 0
  else
    let magnitude : Int := (Nat.toDigits 10 digits).length + exponent
    if 400 < magnitude then .infinite negative
    else if magnitude < -400 then .finite negative 0 0
    else
      let (above, below) := scaleBy 10 exponent
      Binary64.ofFraction negative (digits * above) below

/-- Holds of the two zeros. -/
def Binary64.isZero : Binary64 → Bool
  | .finite _ m _ => m == 0
  | _ => false

/-- The two neighbours of a positive number on the grid of multiples of `10^k`, the nearer one
first, kept only when they are rounded to `mantissa · 2^e`. -/
def neighbour? (mantissa : Nat) (e k : Int) : Option Nat :=
  let (above2, below2) := scaleBy 2 (e - 2)
  let (above10, below10) := scaleBy 10 k
  let grid := above10 * below2
  let unit := above2 * below10
  let value := 4 * mantissa * unit
  let below := if mantissa = leastMantissa && leastExponent < e then 1 else 2
  let low := (4 * mantissa - below) * unit
  let high := (4 * mantissa + 2) * unit
  let inside (c : Nat) : Bool :=
    if mantissa % 2 = 0 then low ≤ c * grid && c * grid ≤ high
    else low < c * grid && c * grid < high
  let c := value / grid
  let toLower := value - c * grid
  let toUpper := (c + 1) * grid - value
  match inside c && c != 0, inside (c + 1) with
  | true, true =>
    if toLower < toUpper || (toLower == toUpper && c % 2 == 0) then some c else some (c + 1)
  | true, false => some c
  | false, true => some (c + 1)
  | false, false => none

/-- The exponent of the leading decimal digit of `m · 2^e`, for positive `m`. -/
def leadingExponent (m : Nat) (e : Int) : Int :=
  let (above, below) := scaleBy 2 e
  let num := m * above
  let guess : Int := (Nat.toDigits 10 num).length - (Nat.toDigits 10 below).length
  let (above10, below10) := scaleBy 10 guess
  if num * below10 < below * above10 then guess - 1 else guess

/-- The fewest decimal digits that are rounded back to `m · 2^e`, and the place of the decimal
point counted from their start. -/
def shortestDigits (m : Nat) (e : Int) : List Char × Int :=
  let leading := leadingExponent m e
  let found := (List.range 17).findSome? fun (n : Nat) =>
    let k := leading - n
    (neighbour? m e k).map fun c => (Nat.toDigits 10 c, k)
  match found with
  | some (digits, k) =>
    ((digits.reverse.dropWhile (· == '0')).reverse, digits.length + k)
  | none => (['0'], 1)

/-- Digits with the decimal point after the first `point` of them; an exponent is written when the
point lies more than three zeros before the digits or after the sixteenth digit. -/
def layout (digits : List Char) (point : Int) : List Char :=
  if -4 < point && point ≤ 16 then
    if point ≤ 0 then '0' :: '.' :: List.replicate (-point).toNat '0' ++ digits
    else
      let whole := digits.take point.toNat
      let fraction := digits.drop point.toNat
      whole ++ List.replicate (point.toNat - whole.length) '0' ++
        '.' :: (if fraction.isEmpty then ['0'] else fraction)
  else
    let exponent := point - 1
    let mark := if exponent < 0 then ['e', '-'] else ['e', '+']
    let size := Nat.toDigits 10 exponent.natAbs
    digits.take 1 ++ (if digits.length ≤ 1 then [] else '.' :: digits.drop 1) ++ mark ++
      List.replicate (2 - size.length) '0' ++ size

/-- The shortest decimal numeral of a number. -/
def Binary64.text : Binary64 → List Char
  | .nan => "nan".toList
  | .infinite negative => (if negative then "-inf" else "inf").toList
  | .finite negative m e =>
    let body :=
      if m = 0 then "0.0".toList
      else
        let (digits, point) := shortestDigits m e
        layout digits point
    if negative then '-' :: body else body

end DocSignature.Number
