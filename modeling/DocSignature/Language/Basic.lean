import DocSignature.Text.Case

/-!
# Target languages

The languages that headers can be converted to.
-/

namespace DocSignature

/-- A target language. -/
inductive Language where
  | python
  | go
  | java
  | csharp
  deriving DecidableEq

namespace Language

def all : List Language := [.python, .go, .java, .csharp]

def label : Language → String
  | .python => "python"
  | .go => "go"
  | .java => "java"
  | .csharp => "csharp"

/-- The version of the way in which headers of a language are written. -/
def version : Language → String
  | _ => "1"

/-- The ending of file names. -/
def extension : Language → String
  | .python => ".py"
  | .go => ".go"
  | .java => ".java"
  | .csharp => ".cs"

/-- The return type of a function that is documented to return nothing. -/
def voidReturn : Language → Option String
  | .python => some "None"
  | .go => none
  | .java | .csharp => some "void"

/-- The return type of a function whose return value is not documented. -/
def missingReturn : Language → Option String
  | .python | .go => none
  | .java | .csharp => some "void"

/-- A text that names no language. -/
structure Unknown where
  value : String

def Unknown.message (e : Unknown) : String :=
  "unknown target language '" ++ e.value ++ "' (expected one of: " ++
    ", ".intercalate (all.map label) ++ ")"

/-- The language that a text names, in small or capital letters. -/
def ofText? (text : String) : Option Language :=
  all.find? fun language => language.label.toList = Text.lower text.toList

/-- The language that a text names. -/
def ofText (text : String) : Except Unknown Language :=
  match ofText? text with
  | some language => .ok language
  | none => .error ⟨text⟩

end Language

end DocSignature
