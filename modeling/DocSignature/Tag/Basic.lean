import DocSignature.TypeExpr.Reader

/-!
# Tags

What a doc comment says line by line: imports, parameters, return values, and tags that mean nothing
here. A tag that cannot be read keeps its name and text as such a tag.
-/

namespace DocSignature

/-- One imported name and the name it has in the file. -/
structure Specifier where
  imported : String
  localName : String
  loc : Loc

/-- What an import brings in: some names, or a whole module under one name. -/
inductive ImportClause where
  | named (specifiers : List Specifier)
  | whole (localName : String)

/-- A documented parameter. -/
structure ParamTag where
  type : Option TypeExpr
  name : String
  optional : Bool
  defaultText : Option String
  description : String

/-- Holds when the tag is about a property of a parameter and not about a parameter. -/
def ParamTag.isProperty (tag : ParamTag) : Bool :=
  tag.name.toList.contains '.'

/-- A documented return value. -/
structure ReturnsTag where
  type : Option TypeExpr
  description : String

/-- What a tag says. -/
inductive TagBody where
  | imports (clause : ImportClause) (moduleName : String)
  | param (tag : ParamTag)
  | returns (tag : ReturnsTag)
  | other (name : String)

/-- A tag with its place and its text. -/
structure Tag where
  loc : Loc
  raw : String
  body : TagBody

/-- Why a tag cannot be read. -/
inductive TagProblem where
  | importUnclosed
  | moduleUnquoted
  | importMalformed (cause : Grammar.SyntaxError)
  | moduleEmpty
  | typeUnclosed (tag : String)
  | typeUnreadable (cause : TypeExpr.ReadError)
  | nameMissing (tag : String)

def TagProblem.message : TagProblem → String
  | .importUnclosed => "@import is missing a closing brace"
  | .moduleUnquoted => "@import is missing a quoted module specifier"
  | .importMalformed cause => "invalid @import: " ++ cause.message
  | .moduleEmpty => "@import module specifier is empty"
  | .typeUnclosed tag => "@" ++ tag ++ " type is missing a closing brace"
  | .typeUnreadable cause => cause.message
  | .nameMissing tag => "@" ++ tag ++ " is missing a parameter name"

/-- A problem and the place it is about. -/
structure TagError where
  problem : TagProblem
  loc : Loc

end DocSignature
