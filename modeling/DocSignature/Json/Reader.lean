import DocSignature.Json.Basic
import DocSignature.Text.Integer

/-!
# Reading JSON

A reader that reports the first problem and the line it is on. Beside the standard notation it
accepts `NaN`, `Infinity` and `-Infinity`; of two fields with the same key the later value counts.
-/

namespace DocSignature.Json

/-- What stops the reader. -/
inductive Problem where
  | expectedValue
  | expectedKey
  | expectedColon
  | expectedComma
  | unterminatedString
  | invalidEscape
  | invalidCodeEscape
  | controlCharacter
  | extraData
  | byteOrderMark
  | tooManyDigits (count : Nat)

def Problem.message : Problem → String
  | .expectedValue => "Expecting value"
  | .expectedKey => "Expecting property name enclosed in double quotes"
  | .expectedColon => "Expecting ':' delimiter"
  | .expectedComma => "Expecting ',' delimiter"
  | .unterminatedString => "Unterminated string starting at"
  | .invalidEscape => "Invalid \\escape"
  | .invalidCodeEscape => "Invalid \\uXXXX escape"
  | .controlCharacter => "Invalid control character at"
  | .extraData => "Extra data"
  | .byteOrderMark => "Unexpected UTF-8 BOM (decode using utf-8-sig)"
  | .tooManyDigits count =>
    "Exceeds the limit (" ++ toString Text.maxDigits ++
      " digits) for integer string conversion: value has " ++ toString count ++
      " digits; use sys.set_int_max_str_digits() to increase the limit"

/-- A problem and the number of characters left where it was met. -/
structure Stop where
  problem : Problem
  left : Nat

/-- Drops the blanks of the notation. -/
def skipSpace (cs : List Char) : List Char :=
  cs.dropWhile fun c => c == ' ' || c == '\t' || c == '\n' || c == '\r'

/-- The value of a hexadecimal digit. -/
def hexValue? (c : Char) : Option Nat :=
  if '0' ≤ c && c ≤ '9' then some (c.toNat - '0'.toNat)
  else if 'a' ≤ c && c ≤ 'f' then some (c.toNat - 'a'.toNat + 10)
  else if 'A' ≤ c && c ≤ 'F' then some (c.toNat - 'A'.toNat + 10)
  else none

/-- Four hexadecimal digits that are followed by something. -/
def hexCode? : List Char → Option Nat
  | a :: b :: c :: d :: _ :: _ =>
    match hexValue? a, hexValue? b, hexValue? c, hexValue? d with
    | some a, some b, some c, some d => some (((a * 16 + b) * 16 + c) * 16 + d)
    | _, _, _, _ => none
  | _ => none

def isHighSurrogate (n : Nat) : Bool := 0xD800 ≤ n && n < 0xDC00

def isLowSurrogate (n : Nat) : Bool := 0xDC00 ≤ n && n < 0xE000

/-- The character of a code; half of a surrogate pair gives the replacement character. -/
def codeChar (n : Nat) : Char :=
  if 0xD800 ≤ n && n < 0xE000 then Char.ofNat 0xFFFD else Char.ofNat n

/-- The character written by an escape, after its backslash, and the length of the escape. -/
def escape (cs : List Char) : Except Problem (Char × Nat) :=
  match cs with
  | [] => .error .unterminatedString
  | 'u' :: rest =>
    match hexCode? rest with
    | none => .error .invalidCodeEscape
    | some n =>
      if !isHighSurrogate n then .ok (codeChar n, 5)
      else match rest.drop 4 with
        | '\\' :: 'u' :: more =>
          if more.length < 5 then .ok (codeChar n, 5)
          else match hexCode? more with
            | none => .error .invalidCodeEscape
            | some m =>
              if isLowSurrogate m then
                .ok (Char.ofNat (0x10000 + (n - 0xD800) * 0x400 + (m - 0xDC00)), 11)
              else .ok (codeChar n, 5)
        | _ => .ok (codeChar n, 5)
  | c :: _ =>
    match c with
    | '"' => .ok ('"', 1)
    | '\\' => .ok ('\\', 1)
    | '/' => .ok ('/', 1)
    | 'b' => .ok (Char.ofNat 8, 1)
    | 'f' => .ok (Char.ofNat 12, 1)
    | 'n' => .ok ('\n', 1)
    | 'r' => .ok ('\r', 1)
    | 't' => .ok ('\t', 1)
    | _ => .error .invalidEscape

/-- The text of a string after its opening quote, and what follows the closing one. `opened` is the
number of characters left at the opening quote, and the first `skip` characters belong to an
escape. -/
def stringFrom (opened : Nat) : (skip : Nat) → List Char → Except Stop (List Char × List Char)
  | _, [] => .error ⟨.unterminatedString, opened⟩
  | skip + 1, _ :: cs => stringFrom opened skip cs
  | 0, c :: cs =>
    if c = '"' then .ok ([], cs)
    else if c = '\\' then
      match escape cs with
      | .error problem => .error ⟨problem, opened⟩
      | .ok (e, size) => (stringFrom opened size cs).map fun r => (e :: r.1, r.2)
    else if c.toNat < 32 then .error ⟨.controlCharacter, cs.length + 1⟩
    else (stringFrom opened 0 cs).map fun r => (c :: r.1, r.2)

/-- The digits a text starts with, and the rest. -/
def digitRun (cs : List Char) : List Char × List Char :=
  (cs.takeWhile Char.isDigit, cs.dropWhile Char.isDigit)

/-- The number that a list of ASCII digits writes. -/
def natOf (digits : List Char) : Nat :=
  Text.ofDigits (digits.map fun c => c.toNat - '0'.toNat)

/-- The digits after a decimal point, when at least one follows it. -/
def fractionRun (cs : List Char) : List Char × List Char :=
  match cs with
  | '.' :: rest =>
    let (digits, after) := digitRun rest
    if digits.isEmpty then ([], cs) else (digits, after)
  | _ => ([], cs)

/-- The exponent after its mark, when it has a digit. -/
def exponentRun (cs : List Char) : Option Int × List Char :=
  let signed (negative : Bool) (rest : List Char) : Option Int × List Char :=
    let (digits, after) := digitRun rest
    if digits.isEmpty then (none, cs)
    else (some (if negative then -(natOf digits : Int) else natOf digits), after)
  match cs with
  | c :: rest =>
    if c = 'e' || c = 'E' then
      match rest with
      | '-' :: more => signed true more
      | '+' :: more => signed false more
      | more => signed false more
    else (none, cs)
  | [] => (none, cs)

/-- The digits before the decimal point: a zero alone, or a run that does not start with one. -/
def wholeRun? (cs : List Char) : Option (List Char × List Char) :=
  match cs with
  | '0' :: rest => some (['0'], rest)
  | c :: _ => if c.isDigit then some (digitRun cs) else none
  | [] => none

/-- A number. -/
def readNumber (cs : List Char) : Except Stop (Json × List Char) :=
  let (negative, body) := match cs with
    | '-' :: rest => (true, rest)
    | rest => (false, rest)
  match wholeRun? body with
  | none => .error ⟨.expectedValue, cs.length⟩
  | some (whole, rest) =>
    let (fraction, rest) := fractionRun rest
    let (exponent, rest) := exponentRun rest
    if fraction.isEmpty && exponent.isNone then
      if Text.maxDigits < whole.length then .error ⟨.tooManyDigits whole.length, cs.length⟩
      else .ok (.int (if negative then -(natOf whole : Int) else natOf whole), rest)
    else
      let scale : Int := exponent.getD 0 - fraction.length
      .ok (.real (Number.Binary64.ofDecimal negative (natOf (whole ++ fraction)) scale), rest)

/-- What follows a word, when the text starts with it. -/
def afterWord? (word : String) (cs : List Char) : Option (List Char) :=
  if word.toList.isPrefixOf cs then some (cs.drop word.length) else none

/-- The values that are written as words. -/
def wordValues : List (String × Json) :=
  [("null", .null), ("true", .bool true), ("false", .bool false), ("NaN", .real .nan),
    ("Infinity", .real (.infinite false)), ("-Infinity", .real (.infinite true))]

/-- A value written as a word. -/
def readWord? (cs : List Char) : Option (Json × List Char) :=
  wordValues.findSome? fun entry => (afterWord? entry.1 cs).map fun rest => (entry.2, rest)

mutual

/-- A value at the start of the text. `fuel` bounds the nesting of the calls; each level of lists
and objects takes two of them and at least one character. -/
def readValue : (fuel : Nat) → List Char → Except Stop (Json × List Char)
  | 0, cs => .error ⟨.expectedValue, cs.length⟩
  | fuel + 1, cs =>
    match cs with
    | '"' :: rest => (stringFrom cs.length 0 rest).map fun r => (.str (String.ofList r.1), r.2)
    | '[' :: rest =>
      match skipSpace rest with
      | ']' :: after => .ok (.arr [], after)
      | start => (readItems fuel start).map fun r => (.arr r.1, r.2)
    | '{' :: rest =>
      match skipSpace rest with
      | '}' :: after => .ok (.obj [], after)
      | start => (readFields fuel [] start).map fun r => (.obj r.1, r.2)
    | _ =>
      match readWord? cs with
      | some found => .ok found
      | none => readNumber cs

/-- The items of a list up to its closing bracket. -/
def readItems : (fuel : Nat) → List Char → Except Stop (List Json × List Char)
  | 0, cs => .error ⟨.expectedValue, cs.length⟩
  | fuel + 1, cs =>
    match readValue fuel cs with
    | .error stop => .error stop
    | .ok (item, rest) =>
      match skipSpace rest with
      | ']' :: after => .ok ([item], after)
      | ',' :: after => (readItems fuel (skipSpace after)).map fun r => (item :: r.1, r.2)
      | other => .error ⟨.expectedComma, other.length⟩

/-- The fields of an object up to its closing brace, added to those read before. -/
def readFields : (fuel : Nat) → Dictionary Json → List Char →
    Except Stop (Dictionary Json × List Char)
  | 0, _, cs => .error ⟨.expectedValue, cs.length⟩
  | fuel + 1, fields, cs =>
    match cs with
    | '"' :: rest =>
      match stringFrom cs.length 0 rest with
      | .error stop => .error stop
      | .ok (key, rest) =>
        match skipSpace rest with
        | ':' :: rest =>
          match readValue fuel (skipSpace rest) with
          | .error stop => .error stop
          | .ok (value, rest) =>
            let fields := Dictionary.set (String.ofList key) value fields
            match skipSpace rest with
            | '}' :: after => .ok (fields, after)
            | ',' :: after => readFields fuel fields (skipSpace after)
            | other => .error ⟨.expectedComma, other.length⟩
        | other => .error ⟨.expectedColon, other.length⟩
    | other => .error ⟨.expectedKey, other.length⟩

end

/-- A problem and its line. -/
structure ReadError where
  problem : Problem
  line : Nat

/-- The value that a whole text writes. -/
def read (cs : List Char) : Except ReadError Json :=
  let fail (stop : Stop) : ReadError :=
    ⟨stop.problem, 1 + (cs.take (cs.length - stop.left)).count '\n'⟩
  if cs.head? = some (Char.ofNat 0xFEFF) then .error (fail ⟨.byteOrderMark, cs.length⟩)
  else
    match readValue (2 * cs.length + 1) (skipSpace cs) with
    | .error stop => .error (fail stop)
    | .ok (value, rest) =>
      match skipSpace rest with
      | [] => .ok value
      | extra => .error (fail ⟨.extraData, extra.length⟩)

end DocSignature.Json
