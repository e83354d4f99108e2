import DocSignature.Header.Basic
import DocSignature.Header.Form
import DocSignature.Source.Layout

/-!
# Finding headers

The headers of a source, in the source language and in the form that the target language gives them.
A header that starts inside a comment or a literal, or inside an earlier header, is passed over.
-/

namespace DocSignature

/-- A function header: its stretch of the source, its name and its parameters. -/
structure Header where
  start : Nat
  stop : Nat
  name : String
  params : List Header.Param
  isAsync : Bool

namespace Header

/-- A recognised header before its parameters are read. -/
structure Outline where
  start : Nat
  stop : Nat
  head : Head
  params : List Char

/-- The header that starts with a recognised head: its parameters go up to the closing parenthesis,
and `tail` tells what else belongs to it. -/
def outline? (cs : List Char) (tail : List Char → Option Nat) (hit : Text.Hit Head) :
    Option Outline :=
  match closingParen? cs (hit.stop - 1) with
  | none => none
  | some close =>
    (tail (cs.drop (close + 1))).map fun size =>
      ⟨hit.start, close + 1 + size, hit.value, Source.slice cs hit.stop close⟩

/-- The headers with heads of a given form. -/
def outlines (cs : List Char) (head : Text.Recogniser Head) (tail : List Char → Option Nat) :
    List Outline :=
  (Text.hits head cs).filterMap (outline? cs tail)

/-- A header with its parameters. -/
def ofOutline (o : Outline) (params : List Param) : Header :=
  ⟨o.start, o.stop, o.head.name, params, o.head.isAsync⟩

/-- The headers of the source language. -/
def sourceHeaders (cs : List Char) : List Header :=
  (outlines cs sourceHead? fun _ => some 0).map fun o =>
    ofOutline o ((splitParams false o.params).map sourceParam)

/-- Each of some texts as a parameter of a target language. -/
def targetParams (language : Language) : List (List Char) → Except ParamFault (List Param)
  | [] => .ok []
  | text :: rest =>
    match targetParam language text, targetParams language rest with
    | .ok p, .ok ps => .ok (p :: ps)
    | .error e, _ => .error e
    | _, .error e => .error e

/-- Each of some outlines as a header of a target language. -/
def readTargets (language : Language) : List Outline → Except ParamFault (List Header)
  | [] => .ok []
  | o :: rest =>
    match targetParams language (splitParams true o.params), readTargets language rest with
    | .ok params, .ok headers => .ok (ofOutline o params :: headers)
    | .error e, _ => .error e
    | _, .error e => .error e

/-- The headers of a target language. -/
def targetHeaders (language : Language) (cs : List Char) : Except ParamFault (List Header) :=
  readTargets language (outlines cs (targetHead? language) (tail? language))

/-- All headers by their start; at the same start those of the source language come first. -/
def candidates (language : Language) (cs : List Char) : Except ParamFault (List Header) :=
  (targetHeaders language cs).map fun targets =>
    (sourceHeaders cs ++ targets).mergeSort fun a b => a.start ≤ b.start

/-- The candidates that start at or behind `cursor`, not in a region and not in a kept header. -/
def keepFrom (regions : List Source.Region) (cursor : Nat) : List Header → List Header
  | [] => []
  | h :: rest =>
    if h.start < cursor || Source.covers regions h.start then keepFrom regions cursor rest
    else h :: keepFrom regions h.stop rest

/-- The headers of a source that are to be written anew, in order. -/
def find (language : Language) (cs : List Char) : Except ParamFault (List Header) :=
  (candidates language cs).map (keepFrom (Source.regions cs) 0)

end Header

end DocSignature
