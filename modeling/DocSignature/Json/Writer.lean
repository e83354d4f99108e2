import DocSignature.Json.Basic

/-!
# Writing JSON

One line of ASCII: a blank after each comma and colon, keys in their order, and an escape for every
character outside the visible ASCII range.
-/

namespace DocSignature.Json

/-- The escape of a code of sixteen bits. -/
def codeEscape (n : Nat) : List Char :=
  '\\' :: 'u' :: Text.hex 4 n

/-- A character inside a written string. -/
def writtenChar (c : Char) : List Char :=
  let n := c.toNat
  if c = '"' || c = '\\' then ['\\', c]
  else if c = '\n' then ['\\', 'n']
  else if c = '\r' then ['\\', 'r']
  else if c = '\t' then ['\\', 't']
  else if n = 12 then ['\\', 'f']
  else if n = 8 then ['\\', 'b']
  else if 32 ≤ n && n < 127 then [c]
  else if n < 0x10000 then codeEscape n
  else codeEscape (0xD800 + (n - 0x10000) / 0x400) ++ codeEscape (0xDC00 + (n - 0x10000) % 0x400)

/-- A string with its quotes. -/
def writtenString (s : String) : List Char :=
  '"' :: s.toList.flatMap writtenChar ++ ['"']

/-- A floating point number; the three that are not finite have words of their own. -/
def writtenReal : Number.Binary64 → List Char
  | .nan => "NaN".toList
  | .infinite true => "-Infinity".toList
  | .infinite false => "Infinity".toList
  | x => x.text

mutual

/-- The written form of a value. -/
def written : Json → List Char
  | .null => "null".toList
  | .bool true => "true".toList
  | .bool false => "false".toList
  | .int n => (toString n).toList
  | .real x => writtenReal x
  | .str s => writtenString s
  | .arr items => '[' :: writtenItems items ++ [']']
  | .obj fields => '{' :: writtenFields fields ++ ['}']

def writtenItems : List Json → List Char
  | [] => []
  | [item] => written item
  | item :: rest => written item ++ ',' :: ' ' :: writtenItems rest

def writtenFields : List (String × Json) → List Char
  | [] => []
  | [(key, value)] => writtenString key ++ ':' :: ' ' :: written value
  | (key, value) :: rest =>
    writtenString key ++ ':' :: ' ' :: written value ++ ',' :: ' ' :: writtenFields rest

end

/-- The written form of a value as a string. -/
def write (value : Json) : String :=
  String.ofList (written value)

end DocSignature.Json
