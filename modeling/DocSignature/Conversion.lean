import DocSignature.Header.Find
import DocSignature.Header.Pairing
import DocSignature.Header.Writer
import DocSignature.Tag.DocComment
import DocSignature.TypeText

/-!
# Converting a source

The headers of a source are written anew in a target language, with the types that the doc comments
in front of them document. Everything else stays as it is.
-/

namespace DocSignature

/-- The types that a user spells otherwise than the language does. -/
abbrev TypeMap := Dictionary (Option String)

/-- What a source is converted to, and the name of its file. -/
structure Target where
  language : Language
  typeMap : TypeMap := []
  file : Option String := none

/-- The naming policy of a target. -/
def Target.policy (t : Target) : NamingPolicy :=
  t.language.policyWith t.typeMap

/-- A converted source. -/
structure Conversion where
  text : String
  diagnostics : List Diagnostic
  file : Option String
  /-- The number of imported names. -/
  bindings : Nat := 0
  /-- The number of headers written anew. -/
  headers : Nat := 0

namespace Conversion

def hasErrors (c : Conversion) : Bool :=
  c.diagnostics.any Diagnostic.isError

/-! ## Documented types -/

/-- The types that say that nothing is returned. -/
def voidNames : List String := ["void", "undefined"]

/-- Holds of a type that says that nothing is returned, unless its name was imported. -/
def isVoid (table : ImportTable) : TypeExpr → Bool
  | .ref name => voidNames.contains name.text && (table.lookup name.base).isNone
  | _ => false

/-- The text of a documented type, and what there is to say about it. -/
def typeOf (t : Target) (table : ImportTable) (e : TypeExpr) : String × List Diagnostic :=
  TypeText.ofExpr table t.policy t.file e

/-- The text of a documented return type, and what there is to say about it. -/
def returnTypeOf (t : Target) (table : ImportTable) (e : TypeExpr) : String × List Diagnostic :=
  if isVoid table e then (t.language.voidReturn.getD "", []) else typeOf t table e

/-- What there is to say about the type of a tag. -/
def tagDiagnostics (t : Target) (table : ImportTable) (tag : Tag) : List Diagnostic :=
  match tag.body with
  | .param p => (p.type.map fun e => (typeOf t table e).2).getD []
  | .returns r => (r.type.map fun e => (returnTypeOf t table e).2).getD []
  | _ => []

/-! ## Headers and the comments in front of them -/

/-- Of comments given last first, those that only blanks part from each other and from `cursor`. -/
def adjacent (cs : List Char) (cursor : Nat) : List DocComment → List DocComment
  | [] => []
  | c :: rest =>
    if Text.allBlank (Source.slice cs c.stop cursor) then c :: adjacent cs c.start rest else []

/-- The doc comments directly in front of an offset, in order. -/
def precedingComments (cs : List Char) (comments : List DocComment) (offset : Nat) :
    List DocComment :=
  (adjacent cs offset (comments.takeWhile (·.stop ≤ offset)).reverse).reverse

/-- A declared parameter with its documentation, ready to be written. -/
def renderedParam (t : Target) (table : ImportTable) (p : Header.Param) (doc : Option Header.Doc) :
    Header.Rendered :=
  let tag := doc.map (·.2)
  let value := match p.defaultText with
    | some text => some text
    | none => tag.bind (·.defaultText)
  { name := p.name
    typeText := (tag.bind (·.type)).map fun e => (typeOf t table e).1
    optional := value.isSome || tag.any (·.optional)
    defaultText := value }

/-- The return type of a header behind some comments: that of the first tag about it. -/
def returnText (t : Target) (table : ImportTable) (comments : List DocComment) : Option String :=
  match (comments.findSome? DocComment.returns?).bind (·.2.type) with
  | some e => some (returnTypeOf t table e).1
  | none => t.language.missingReturn

/-- The diagnostic about a documented parameter that a header does not have. -/
def unmatchedDiagnostic (t : Target) (h : Header) (doc : Header.Doc) : Diagnostic :=
  { kind := .unmatchedParam
    message := "@param '" ++ doc.2.name ++ "' does not match any parameter of '" ++ h.name ++ "'"
    phase := some .driver
    span := Span.ofLoc doc.1 t.file }

/-- A header in the target language, and what there is to say about it. -/
def renderHeader (t : Target) (table : ImportTable) (comments : List DocComment) (h : Header) :
    String × List Diagnostic :=
  let (docs, unmatched) := Header.pair (h.params.map (·.name)) (comments.flatMap (·.params))
  let params := (h.params.zip docs).map fun (p, doc) =>
    Header.renderParam t.language t.policy.fallback (renderedParam t table p doc)
  (Header.renderHeader t.language (Header.functionName t.language h.name) params
      (returnText t table comments) h.isAsync,
    unmatched.map (unmatchedDiagnostic t h))

/-! ## The whole source -/

/-- A stretch of a source, from `start` to before `stop`, and what is written in its place. -/
structure Edit where
  start : Nat
  stop : Nat
  text : List Char

/-- A source from `cursor` on, with some stretches replaced. -/
def splice (cs : List Char) (cursor : Nat) : List Edit → List Char
  | [] => cs.drop cursor
  | e :: rest => Source.slice cs cursor e.start ++ e.text ++ splice cs e.stop rest

/-- Each header with the comments in front of it, written anew. -/
def edits (t : Target) (table : ImportTable) (cs : List Char) (comments : List DocComment)
    (headers : List Header) : List (Edit × List Diagnostic) :=
  headers.map fun h =>
    let (text, diagnostics) := renderHeader t table (precedingComments cs comments h.start) h
    (⟨h.start, h.stop, text.toList⟩, diagnostics)

/-- A source converted to a target. It fails only on a header of the target language with a
parameter that has no name. -/
def convert (t : Target) (source : String) : Except Header.ParamFault Conversion :=
  let cs := source.toList
  let (comments, tagProblems) := DocComment.readAll t.file cs
  let tags := comments.flatMap (·.tags)
  let (table, repeated) := ImportTable.ofTags t.file tags
  let typeProblems := tags.flatMap (tagDiagnostics t table)
  (Header.find t.language cs).map fun headers =>
    let written := edits t table cs comments headers
    let found := tagProblems ++ repeated ++ typeProblems ++ written.flatMap (·.2)
    { text := String.ofList (splice cs 0 (written.map (·.1)))
      diagnostics := Diagnostic.sort found
      file := t.file
      bindings := table.size
      headers := headers.length }

end Conversion

end DocSignature
