import DocSignature.Language.Policy

/-!
# Writing headers

Function names, parameters and whole headers in each target language.
-/

namespace DocSignature.Header

/-- A capital letter of ASCII. -/
def isCapital (c : Char) : Bool := 'A' ≤ c && c ≤ 'Z'

/-- A small letter of ASCII. -/
def isSmall (c : Char) : Bool := 'a' ≤ c && c ≤ 'z'

/-- Parts an acronym from the word behind it: within a run of capitals, an underscore goes before
the last when a small letter follows it. `inRun` says whether a capital stands before the text. -/
def splitAcronyms (inRun : Bool) : List Char → List Char
  | [] => []
  | c :: cs =>
    let boundary := inRun && isCapital c && cs.head?.any isSmall
    (if boundary then ['_', c] else [c]) ++ splitAcronyms (isCapital c) cs

/-- Parts words: an underscore goes between a small letter or digit and the capital behind it. -/
def splitWords (before : Option Char) : List Char → List Char
  | [] => []
  | c :: cs =>
    let boundary := isCapital c && before.any fun b => isSmall b || b.isDigit
    (if boundary then ['_', c] else [c]) ++ splitWords (some c) cs

/-- A name in small letters, its words parted by underscores. -/
def snakeCase (name : List Char) : List Char :=
  Text.lower (splitWords none (splitAcronyms false name))

/-- A name with a capital at its start. -/
def capitalised : List Char → List Char
  | c :: cs => Text.upperChar c ++ cs
  | [] => []

/-- The name of a function in a target language. -/
def functionName (language : Language) (name : String) : String :=
  match language with
  | .python => String.ofList (snakeCase name.toList)
  | .go | .java => name
  | .csharp => String.ofList (capitalised name.toList)

/-- A parameter to be written. -/
structure Rendered where
  name : String
  typeText : Option String
  optional : Bool := false
  defaultText : Option String := none

/-- The type of a parameter, or the stand-in when it has none or an empty one. -/
def typeOr (fallback : String) (typeText : Option String) : String :=
  match typeText with
  | some text => if text = "" then fallback else text
  | none => fallback

/-- The text followed by a default, if there is one. -/
def withDefault (text sign : String) (defaultText : Option String) : String :=
  match defaultText with
  | some value => text ++ sign ++ value
  | none => text

/-- What an optional type starts with. -/
def optionalMark : String := "typing.Optional["

/-- A parameter in a target language. `fallback` is the type of one that has none. -/
def renderParam (language : Language) (fallback : String) (p : Rendered) : String :=
  match language with
  | .python =>
    let value := match p.defaultText with
      | some text => some text
      | none => if p.optional then some "None" else none
    match p.typeText with
    | none => withDefault p.name "=" value
    | some type =>
      let type :=
        if p.optional && value = some "None" && !optionalMark.toList.isPrefixOf type.toList then
          optionalMark ++ type ++ "]"
        else type
      withDefault (p.name ++ ": " ++ type) " = " value
  | .go => p.name ++ " " ++ typeOr fallback p.typeText
  | .java => "final " ++ typeOr fallback p.typeText ++ " " ++ p.name
  | .csharp =>
    let type := typeOr fallback p.typeText
    if p.optional then
      let type := if type.toList.getLast? = some '?' then type else type ++ "?"
      withDefault (type ++ " " ++ p.name) " = " (some (p.defaultText.getD "null"))
    else withDefault (type ++ " " ++ p.name) " = " p.defaultText

/-- A return type that is not empty, behind a sign. -/
def returnPart (sign : String) (returns : Option String) : String :=
  match returns with
  | some text => if text = "" then "" else sign ++ text
  | none => ""

/-- A header in a target language. -/
def renderHeader (language : Language) (name : String) (params : List String)
    (returns : Option String) (isAsync : Bool) : String :=
  let list := "(" ++ ", ".intercalate params ++ ")"
  match language with
  | .python =>
    (if isAsync then "async def " else "def ") ++ name ++ list ++ returnPart " -> " returns
  | .go => "func " ++ name ++ list ++ returnPart " " returns
  | .java | .csharp => "public static " ++ typeOr "void" returns ++ " " ++ name ++ list

end DocSignature.Header
