import DocSignature.Dictionary
import DocSignature.Number.Binary64
import DocSignature.Text.Quoted

/-!
# JSON values

Values of the data format in which settings are read and reports are written. Integers and floating
point numbers are kept apart, and an object keeps the order of its keys.
-/

namespace DocSignature

/-- A value of the data format. -/
inductive Json where
  | null
  | bool (value : Bool)
  | int (value : Int)
  | real (value : Number.Binary64)
  | str (value : String)
  | arr (items : List Json)
  | obj (fields : List (String × Json))

namespace Json

/-- The value under a key of an object. -/
def get? (key : String) : Json → Option Json
  | .obj fields => Dictionary.get? key fields
  | _ => none

/-- A text, or null when there is none. -/
def ofText : Option String → Json
  | some s => .str s
  | none => .null

/-- An integer, or null when there is none. -/
def ofInt : Option Int → Json
  | some n => .int n
  | none => .null

/-- Holds of null, false, zero and everything empty. -/
def isFalsy : Json → Bool
  | .null => true
  | .bool b => !b
  | .int n => n == 0
  | .real x => x.isZero
  | .str s => s.isEmpty
  | .arr items => items.isEmpty
  | .obj fields => fields.isEmpty

mutual

/-- A value inside a shown list or object: texts are quoted. -/
def shown : Json → List Char
  | .null => "None".toList
  | .bool true => "True".toList
  | .bool false => "False".toList
  | .int n => (toString n).toList
  | .real x => x.text
  | .str s => Text.quoted s.toList
  | .arr items => '[' :: shownItems items ++ [']']
  | .obj fields => '{' :: shownFields fields ++ ['}']

def shownItems : List Json → List Char
  | [] => []
  | [item] => shown item
  | item :: rest => shown item ++ ',' :: ' ' :: shownItems rest

def shownFields : List (String × Json) → List Char
  | [] => []
  | [(key, value)] => Text.quoted key.toList ++ ':' :: ' ' :: shown value
  | (key, value) :: rest =>
    Text.quoted key.toList ++ ':' :: ' ' :: shown value ++ ',' :: ' ' :: shownFields rest

end

/-- The text of a value in a message: a text stands as it is, anything else is shown. -/
def display : Json → List Char
  | .str s => s.toList
  | value => shown value

end Json

end DocSignature
