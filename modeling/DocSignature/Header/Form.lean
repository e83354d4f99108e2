import DocSignature.Language.Basic
import DocSignature.Text.Blank
import DocSignature.Text.Search
import DocSignature.Text.Word

/-!
# Forms of headers

The start of a header, up to the parenthesis that opens its parameters, and what may stand behind
the closing one: in the source language and in each target language.
-/

namespace DocSignature.Header

/-- The start of a header. -/
structure Head where
  name : String
  isAsync : Bool

/-- A keyword and the blanks behind it. -/
def keyword? (word : String) (cs : List Char) : Option (List Char) :=
  (Text.after? word.toList cs).bind Text.blanks?

/-- A keyword that may be missing: whether it is there, and the text behind it. -/
def optionalKeyword (word : String) (cs : List Char) : Bool × List Char :=
  match keyword? word cs with
  | some rest => (true, rest)
  | none => (false, cs)

/-- A name and the opening parenthesis behind it: the name, and the text behind the parenthesis. -/
def nameOpen? : List Char → Option (List Char × List Char)
  | c :: cs =>
    if Text.isNameStart c then
      match Text.trimLeft (cs.dropWhile Text.isNameChar) with
      | '(' :: rest => some (c :: cs.takeWhile Text.isNameChar, rest)
      | _ => none
    else none
  | [] => none

/-- Holds when a header may start behind a character: not in the middle of a name or a path. -/
def mayStart (before : Option Char) : Bool :=
  !before.any fun c => Text.isNameChar c || c == '.'

/-- The start of a header whose name and parenthesis are given, and its length. -/
def headOf (cs : List Char) (isAsync : Bool) (found : Option (List Char × List Char)) :
    Option (Head × Nat) :=
  found.map fun (name, rest) => (⟨String.ofList name, isAsync⟩, cs.length - rest.length)

/-- The word `function`, not followed by a word character, and the star that may follow it. -/
def functionWord? (cs : List Char) : Option (List Char) :=
  match Text.after? "function".toList cs with
  | none => none
  | some rest =>
    if rest.head?.any Text.isWordChar then none
    else
      match Text.trimLeft rest with
      | '*' :: more => some (Text.trimLeft more)
      | more => some more

/-- The start of a function of the source language. -/
def sourceHead? : Text.Recogniser Head := fun before cs =>
  if !mayStart before then none
  else
    let (exported, rest) := optionalKeyword "export" cs
    let rest := if exported then (optionalKeyword "default" rest).2 else rest
    let (isAsync, rest) := optionalKeyword "async" rest
    headOf cs isAsync ((functionWord? rest).bind nameOpen?)

/-- Holds of a character that may stand in a return type before a name. -/
def isReturnChar (c : Char) : Bool :=
  Text.isNameChar c || c == '.' || c == '<' || c == '>' || c == '[' || c == ']' || c == '?' ||
    c == ',' || c == ' '

/-- The rest of a return type, and the first name behind blanks that opens a parenthesis. -/
def nameBehind? : List Char → Option (List Char × List Char)
  | [] => none
  | c :: cs =>
    (if Text.isBlank c then nameOpen? (Text.trimLeft cs) else none).orElse fun _ =>
      if isReturnChar c then nameBehind? cs else none

/-- A return type and the name behind it. -/
def returnThenName? : List Char → Option (List Char × List Char)
  | c :: cs => if isReturnChar c then nameBehind? cs else none
  | [] => none

/-- The start of a static method behind its keywords: blanks, a return type, blanks and a name. An
inner space of the first blanks may be all of the return type. -/
def staticName? (cs : List Char) : Option (List Char × List Char) :=
  let blanks := cs.takeWhile Text.isBlank
  let rest := cs.drop blanks.length
  if blanks.isEmpty then none
  else
    match returnThenName? rest with
    | some found => some found
    | none => if (blanks.drop 1).dropLast.contains ' ' then nameOpen? rest else none

/-- The start of a header of a target language. -/
def targetHead? (language : Language) : Text.Recogniser Head := fun before cs =>
  if !mayStart before then none
  else
    match language with
    | .python =>
      let (isAsync, rest) := optionalKeyword "async" cs
      headOf cs isAsync ((keyword? "def" rest).bind nameOpen?)
    | .go => headOf cs false ((keyword? "func" cs).bind nameOpen?)
    | .java | .csharp =>
      headOf cs false
        (((keyword? "public" cs).bind (Text.after? "static".toList)).bind staticName?)

/-- Holds where a header may end: before one of some marks, or before the end of a line, with
blanks between. -/
def endsBefore (marks : List Char) (cs : List Char) : Bool :=
  (cs.takeWhile Text.isBlank).contains '\n' ||
    match Text.trimLeft cs with
    | [] => true
    | c :: _ => marks.contains c

/-- The number of characters before the first place where a header may end. -/
def untilEnd (marks : List Char) : List Char → Nat
  | [] => 0
  | c :: cs => if endsBefore marks (c :: cs) then 0 else 1 + untilEnd marks cs

/-- A place where a header may end, if the text starts with one. -/
def endHere? (marks : List Char) (cs : List Char) : Option Nat :=
  if endsBefore marks cs then some 0 else none

/-- The length of what belongs to a header behind its closing parenthesis; none when the header is
not one of the language. -/
def tail? (language : Language) (cs : List Char) : Option Nat :=
  match language with
  | .python =>
    match Text.trimLeft cs with
    | '-' :: '>' :: rest =>
      let type := Text.trimLeft rest
      some (cs.length - type.length + untilEnd ['{', ':'] type)
    | _ => endHere? ['{', ':'] cs
  | .go =>
    let blanks := cs.takeWhile fun c => c == ' ' || c == '\t'
    match blanks, cs.drop blanks.length with
    | _ :: _, c :: rest =>
      if Text.isBlank c || c == '{' || c == '(' then endHere? ['{'] cs
      else some (blanks.length + 1 + untilEnd ['{'] rest)
    | _, _ => endHere? ['{'] cs
  | .java | .csharp => some 0

end DocSignature.Header
