import DocSignature.Source.Region
import DocSignature.Text.Blank

/-!
# Parameter lists

A parameter list is looked at as a row of pieces: string literals, each kept whole, and the single
characters between them. On pieces the closing parenthesis is found, the list is cut at its commas,
and a default is cut off.
-/

namespace DocSignature.Header

/-- A string literal, or a character outside of literals. -/
inductive Piece where
  | char (c : Char)
  | literal (text : List Char)

/-- The characters of a piece. -/
def Piece.chars : Piece → List Char
  | .char c => [c]
  | .literal text => text

/-- The number of characters up to and including the closing quote, or up to the end of a text that
has none. A backslash takes the character behind it along. -/
def literalLength (quote : Char) : List Char → Nat
  | [] => 0
  | c :: cs =>
    if c = '\\' then
      match cs with
      | _ :: rest => 2 + literalLength quote rest
      | [] => 1
    else if c = quote then 1
    else 1 + literalLength quote cs

/-- The offset just behind the literal that opens at `start`, whatever character stands there. -/
def literalStop? (cs : List Char) (start : Nat) : Option Nat :=
  match cs.drop start with
  | quote :: rest => some (start + 1 + literalLength quote rest)
  | [] => none

/-- The pieces of a text whose first `skip` characters belong to an earlier piece. -/
def piecesFrom : (skip : Nat) → List Char → List Piece
  | _, [] => []
  | skip + 1, _ :: cs => piecesFrom skip cs
  | 0, c :: cs =>
    if Source.isQuote c then
      let size := literalLength c cs
      .literal (c :: cs.take size) :: piecesFrom size cs
    else .char c :: piecesFrom 0 cs

/-- The pieces of a text. -/
def pieces (cs : List Char) : List Piece :=
  piecesFrom 0 cs

/-- The text that some pieces make up. -/
def chars (ps : List Piece) : List Char :=
  ps.flatMap Piece.chars

/-- Holds of a parenthesis, bracket or brace that opens. -/
def opens (c : Char) : Bool :=
  c == '(' || c == '[' || c == '{'

/-- Holds of a parenthesis, bracket or brace that closes. -/
def closes (c : Char) : Bool :=
  c == ')' || c == ']' || c == '}'

/-- The offset of the piece that brings the nesting back to zero, when it is a parenthesis; the
pieces start at offset `pos` and at nesting `depth`. -/
def closingAt? (depth : Int) (pos : Nat) : List Piece → Option Nat
  | [] => none
  | .literal text :: ps => closingAt? depth (pos + text.length) ps
  | .char c :: ps =>
    if opens c then closingAt? (depth + 1) (pos + 1) ps
    else if closes c then
      if depth - 1 = 0 then (if c = ')' then some pos else none)
      else closingAt? (depth - 1) (pos + 1) ps
    else closingAt? depth (pos + 1) ps

/-- The offset of the parenthesis that closes the one at `start`. All kinds of brackets are counted
alike. -/
def closingParen? (cs : List Char) (start : Nat) : Option Nat :=
  closingAt? 0 start (pieces (cs.drop start))

/-! ## Indices

An index below zero counts from the end of a text, and reading from it goes on with the whole text
behind its end.
-/

/-- What is read from an index on; none when the index lies before the text. -/
def readFrom? (cs : List Char) (index : Int) : Option (List Char) :=
  if 0 ≤ index then some (cs.drop index.toNat)
  else if -index ≤ cs.length then some (cs.drop (cs.length - (-index).toNat) ++ cs)
  else none

/-- The index of the parenthesis that closes the one at an index, if there is one; nothing at all
when the index lies before the text. -/
def closingIndex? (cs : List Char) (index : Int) : Option (Option Int) :=
  (readFrom? cs index).map fun text => (closingParen? text 0).map fun n => index + n

/-- The index just behind the literal that opens at an index, where there must be a character. -/
def literalStopIndex? (cs : List Char) (index : Int) : Option Int :=
  (readFrom? cs index).bind fun text => (literalStop? text 0).map fun n => index + n

/-! ## Cutting -/

/-- Puts a text in front of the first of some parts. -/
def prepend (text : List Char) : List (List Char) → List (List Char)
  | part :: rest => (text ++ part) :: rest
  | [] => [text]

/-- The parts of a list between its commas at nesting zero. `angles` says whether `<` and `>` nest
too; a bracket that closes nothing does not count. -/
def partsAt (angles : Bool) (depth : Nat) : List Piece → List (List Char)
  | [] => [[]]
  | .literal text :: ps => prepend text (partsAt angles depth ps)
  | .char c :: ps =>
    if opens c || (angles && c == '<') then prepend [c] (partsAt angles (depth + 1) ps)
    else if closes c || (angles && c == '>') then prepend [c] (partsAt angles (depth - 1) ps)
    else if c = ',' && depth = 0 then [] :: partsAt angles 0 ps
    else prepend [c] (partsAt angles depth ps)

/-- The parameters of a list, without blanks around them; empty ones are left out. -/
def splitParams (angles : Bool) (cs : List Char) : List (List Char) :=
  ((partsAt angles 0 (pieces cs)).map Text.trim).filter fun part => !part.isEmpty

/-- The text before the first equals sign outside of literals, and the pieces behind it. -/
def cutEquals? : List Piece → Option (List Char × List Piece)
  | [] => none
  | .literal text :: ps => (cutEquals? ps).map fun (before, after) => (text ++ before, after)
  | .char c :: ps =>
    if c = '=' then some ([], ps)
    else (cutEquals? ps).map fun (before, after) => (c :: before, after)

/-- A text without blanks around it, unless nothing is left. -/
def nonBlank? (cs : List Char) : Option (List Char) :=
  match Text.trim cs with
  | [] => none
  | text => some text

/-- A parameter and its default, cut at the first equals sign. -/
def splitDefault (cs : List Char) : List Char × Option (List Char) :=
  match cutEquals? (pieces cs) with
  | some (before, after) => (Text.trim before, nonBlank? (chars after))
  | none => (Text.trim cs, none)

/-- The text before the equals sign that introduces a default, and the pieces behind it. The sign
stands outside of brackets and braces and does not begin an arrow. -/
def cutDefault? (depth : Int) : List Piece → Option (List Char × List Piece)
  | [] => none
  | .literal text :: ps =>
    (cutDefault? depth ps).map fun (before, after) => (text ++ before, after)
  | .char c :: ps =>
    let keep (found : Option (List Char × List Piece)) : Option (List Char × List Piece) :=
      found.map fun (before, after) => (c :: before, after)
    if c = '[' || c = '{' then keep (cutDefault? (depth + 1) ps)
    else if c = ']' || c = '}' then keep (cutDefault? (depth - 1) ps)
    else if c = '=' && depth = 0 && (chars ps).head? ≠ some '>' then some ([], ps)
    else keep (cutDefault? depth ps)

end DocSignature.Header
