import DocSignature.Dictionary

/-!
# Naming policies

How a target language spells types: a spelling for each builtin name, or none when the language has
no equivalent, a type that stands in where there is none, and shapes for arrays and unions.
-/

namespace DocSignature

/-- A text with places at which an argument is put in. -/
inductive Template.Piece where
  | char (c : Char)
  | hole
  deriving DecidableEq

/-- A text with places at which an argument is put in. -/
abbrev Template := List Template.Piece

namespace Template

/-- A fixed text. -/
def ofText (s : String) : Template :=
  s.toList.map .char

/-- The argument between two fixed texts. -/
def around (before after : String) : Template :=
  ofText before ++ .hole :: ofText after

/-- The template that a text writes: a zero in braces is a hole, and a doubled brace is a brace. -/
def read : List Char → Template
  | '{' :: '0' :: '}' :: cs => .hole :: read cs
  | '{' :: '{' :: cs => .char '{' :: read cs
  | '}' :: '}' :: cs => .char '}' :: read cs
  | c :: cs => .char c :: read cs
  | [] => []

/-- The text with the argument in every hole. -/
def fill (t : Template) (argument : String) : String :=
  String.ofList <| t.flatMap fun piece =>
    match piece with
    | .char c => [c]
    | .hole => argument.toList

end Template

/-- How names, arrays and unions are spelled. -/
structure NamingPolicy where
  /-- The language, as it is called in messages. -/
  language : String
  /-- Spellings of builtin names; none means that the language has no equivalent. -/
  builtins : Dictionary (Option String)
  /-- The type that stands in where there is no equivalent. -/
  fallback : String
  arrayTemplate : Template
  /-- The shape of a union; a language without unions has none. -/
  unionTemplate : Option Template := none
  unionSeparator : String := ", "
  /-- Spellings that go before those of builtin names. -/
  overrides : Dictionary (Option String) := []

namespace NamingPolicy

/-- The entry of a name: whether it is known, and its spelling. -/
def lookup (p : NamingPolicy) (name : String) : Option (Option String) :=
  match Dictionary.get? name p.overrides with
  | some entry => some entry
  | none => Dictionary.get? name p.builtins

/-- The spelling of a name: as it is when it is unknown, the fallback when it has no equivalent. -/
def spell (p : NamingPolicy) (name : String) : String :=
  match p.lookup name with
  | none => name
  | some (some spelling) => spelling
  | some none => p.fallback

/-- The spelling of an array. -/
def array (p : NamingPolicy) (element : String) : String :=
  p.arrayTemplate.fill element

/-- The members of a list that are not in `seen`, each once, in the order of their first
occurrence. -/
def distinctFrom (seen : List String) : List String → List String
  | [] => []
  | x :: xs => if x ∈ seen then distinctFrom seen xs else x :: distinctFrom (x :: seen) xs

/-- The members of a list, each once, in the order of their first occurrence. -/
def distinct (xs : List String) : List String :=
  distinctFrom [] xs

/-- The spelling of a union: a single distinct member stands for itself. -/
def union (p : NamingPolicy) (members : List String) : String :=
  match distinct members with
  | [member] => member
  | several =>
    match p.unionTemplate with
    | none => p.fallback
    | some template => template.fill (p.unionSeparator.intercalate several)

/-- The policy with more overrides, which replace those of the same name. -/
def withOverrides (p : NamingPolicy) (more : Dictionary (Option String)) : NamingPolicy :=
  { p with overrides := Dictionary.merge p.overrides more }

end NamingPolicy

end DocSignature
