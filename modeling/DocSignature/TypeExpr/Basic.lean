import DocSignature.Loc

/-!
# Type expressions

Names with members, arrays and unions, each with its place.
-/

namespace DocSignature

/-- A name, with the members that are reached from it by dots. -/
structure TypeRef where
  loc : Loc
  base : String
  rest : List String

/-- The name as written. -/
def TypeRef.text (ref : TypeRef) : String :=
  ".".intercalate (ref.base :: ref.rest)

/-- A type as it is written in a tag. -/
inductive TypeExpr where
  | ref (name : TypeRef)
  | array (loc : Loc) (element : TypeExpr)
  | union (loc : Loc) (members : List TypeExpr)

namespace TypeExpr

/-- Holds of a union. -/
def isUnion : TypeExpr → Bool
  | .union _ _ => true
  | _ => false

mutual

/-- The type as text: parentheses only around a union that is the element of an array. -/
def text : TypeExpr → String
  | .ref name => name.text
  | .array _ element =>
    (if element.isUnion then "(" ++ element.text ++ ")" else element.text) ++ "[]"
  | .union _ members => "|".intercalate (texts members)

def texts : List TypeExpr → List String
  | [] => []
  | member :: rest => member.text :: texts rest

end

mutual

/-- The names in a type, in the order in which they are written. -/
def refs : TypeExpr → List TypeRef
  | .ref name => [name]
  | .array _ element => element.refs
  | .union _ members => refsOf members

def refsOf : List TypeExpr → List TypeRef
  | [] => []
  | member :: rest => member.refs ++ refsOf rest

end

end TypeExpr

end DocSignature
