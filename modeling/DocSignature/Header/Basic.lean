import DocSignature.Header.Pieces
import DocSignature.Language.Policy

/-!
# Parameters of headers

A parameter as it stands in a header, in the source language and in each target language.
-/

namespace DocSignature.Header

/-- A parameter of a header: its name and its default. -/
structure Param where
  name : String
  defaultText : Option String := none

/-- A parameter with nothing where its name should stand. -/
inductive ParamFault where
  | nameless
  deriving DecidableEq

/-- The kind of a fault, in messages. -/
def ParamFault.kind : ParamFault → String
  | .nameless => "IndexError"

def ParamFault.message : ParamFault → String
  | .nameless => "list index out of range"

/-- A name without the dots of a rest parameter. -/
def withoutDots (cs : List Char) : List Char :=
  Text.trim ((Text.trim cs).dropWhile (· == '.'))

/-- A parameter of the source language: a name, a rest parameter or a pattern, and a default. -/
def sourceParam (cs : List Char) : Param :=
  match cutDefault? 0 (pieces cs) with
  | some (before, after) =>
    ⟨String.ofList (withoutDots before), (nonBlank? (chars after)).map String.ofList⟩
  | none => ⟨String.ofList (withoutDots cs), none⟩

/-- A parameter whose name is a word that may be missing. -/
def wordParam (word : Option (List Char)) (defaultText : Option (List Char)) :
    Except ParamFault Param :=
  match word with
  | some name => .ok ⟨String.ofList name, defaultText.map String.ofList⟩
  | none => .error .nameless

/-- A parameter of a header in a target language. -/
def targetParam (language : Language) (cs : List Char) : Except ParamFault Param :=
  match language with
  | .python =>
    let (head, defaultText) := splitDefault cs
    .ok ⟨String.ofList (Text.trim (head.takeWhile (· != ':'))), defaultText.map String.ofList⟩
  | .go => wordParam (Text.firstWord? cs) none
  | .java => wordParam (Text.lastWord? cs) none
  | .csharp =>
    let (head, defaultText) := splitDefault cs
    wordParam (Text.lastWord? head) defaultText

end DocSignature.Header
