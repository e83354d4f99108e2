import DocSignature.Diagnostic
import DocSignature.Tag.ImportReader
import DocSignature.Tag.Raw

/-!
# Reading tags

From the text of a tag to what it says, and from a doc comment to its tags. A tag that cannot be
read becomes a tag of no meaning and one diagnostic; the other tags do not notice.
-/

namespace DocSignature.Tag

/-- The type in braces at the start of a tag's text, if there is one, and the text behind it. The
tag stands at `loc`, and `body` is what follows its name. -/
def splitType (name : List Char) (loc : Loc) (body : List Char) :
    Except TagError (Option TypeExpr × List Char) :=
  let blanks := body.takeWhile Text.isBlank
  match body.drop blanks.length with
  | '{' :: rest =>
    match braceEnd? 0 rest with
    | none => .error ⟨.typeUnclosed (String.ofList name), loc⟩
    | some size =>
      let start :=
        if blanks.contains '\n' then loc else loc.forward (name.length + 1 + blanks.length + 1)
      match TypeExpr.read start (rest.take size) with
      | .ok type => .ok (some type, rest.drop (size + 1))
      | .error cause => .error ⟨.typeUnreadable cause, start⟩
  | _ => .ok (none, Text.trim body)

/-- Prose behind a tag, without the dash that may introduce it. -/
def description (cs : List Char) : String :=
  String.ofList <|
    match Text.trim cs with
    | '-' :: rest => Text.trim rest
    | text => text

/-- A parameter's name as documented. -/
structure ParamName where
  name : List Char
  optional : Bool
  defaultText : Option (List Char)

/-- The name at the start of a text, and the rest. -/
def identifier? : List Char → Option (List Char × List Char)
  | c :: cs =>
    let continues (d : Char) : Bool := Text.isNameChar d || d == '.'
    if Text.isNameStart c then some (c :: cs.takeWhile continues, cs.dropWhile continues) else none
  | [] => none

/-- The end of an optional parameter behind its name: an optional default, and the closing bracket.
The default goes up to the first closing bracket. -/
def optionalEnd? (cs : List Char) : Option (Option (List Char) × List Char) :=
  match Text.trimLeft cs with
  | ']' :: rest => some (none, rest)
  | '=' :: rest =>
    let inside := rest.takeWhile (· != ']')
    match rest.drop inside.length with
    | _ :: after =>
      let text := Text.trim inside
      some (if text.isEmpty then none else some text, after)
    | [] => none
  | _ => none

/-- The parameter name at the start of a text, in brackets when it is optional, and the rest. -/
def paramName? (cs : List Char) : Option (ParamName × List Char) :=
  match Text.trimLeft cs with
  | '[' :: inner =>
    match identifier? (Text.trimLeft inner) with
    | none => none
    | some (name, rest) =>
      (optionalEnd? rest).map fun (text, after) => (⟨name, true, text⟩, after)
  | text => (identifier? text).map fun (name, rest) => (⟨name, false, none⟩, rest)

/-- The names under which parameters are documented. -/
def paramNames : List (List Char) :=
  ["param".toList, "arg".toList, "argument".toList]

/-- The names under which return values are documented. -/
def returnsNames : List (List Char) :=
  ["returns".toList, "return".toList]

/-- A documented parameter. -/
def readParam (raw : Raw) : Except TagError TagBody :=
  match splitType raw.name raw.loc (raw.text.drop (raw.name.length + 1)) with
  | .error e => .error e
  | .ok (type, rest) =>
    match paramName? rest with
    | none => .error ⟨.nameMissing (String.ofList raw.name), raw.loc⟩
    | some (p, after) =>
      .ok (.param ⟨type, String.ofList p.name, p.optional, p.defaultText.map String.ofList,
        description after⟩)

/-- A documented return value. -/
def readReturns (raw : Raw) : Except TagError TagBody :=
  match splitType raw.name raw.loc (raw.text.drop (raw.name.length + 1)) with
  | .error e => .error e
  | .ok (type, rest) => .ok (.returns ⟨type, description rest⟩)

/-- What a tag says. -/
def readBody (raw : Raw) : Except TagError TagBody :=
  if raw.name = "import".toList then readImport raw.loc (raw.text.drop (raw.name.length + 1))
  else if paramNames.contains raw.name then readParam raw
  else if returnsNames.contains raw.name then readReturns raw
  else .ok (.other (String.ofList raw.name))

/-- A tag, and the diagnostic about it when it cannot be read. -/
def read (file : Option String) (raw : Raw) : Tag × List Diagnostic :=
  let text := String.ofList raw.text
  match readBody raw with
  | .ok body => (⟨raw.loc, text, body⟩, [])
  | .error e =>
    (⟨raw.loc, text, .other (String.ofList raw.name)⟩,
      [{ kind := .malformedTag, message := e.problem.message, phase := some .parser,
         span := Span.ofLoc e.loc file }])

/-- The tags of a comment at `loc`, and the diagnostics about them. -/
def readAll (file : Option String) (loc : Loc) (text : List Char) : List Tag × List Diagnostic :=
  let found := (rawTags loc text).map (read file)
  (found.map (·.1), found.flatMap (·.2))

end DocSignature.Tag
