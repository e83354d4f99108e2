import DocSignature.Text.Search

/-!
# Comments and string literals

The stretches of a source that are not code. They are found from left to right; an opening mark
that is never closed stands for itself, and the search goes on behind it.
-/

namespace DocSignature.Source

/-- What a stretch of text that is not code is. -/
inductive RegionKind where
  | docComment
  | comment
  | literal
  deriving DecidableEq

/-- The number of characters up to and including the first `*/`. -/
def commentEnd? : List Char → Option Nat
  | [] => none
  | c :: cs =>
    if c = '*' && cs.head? = some '/' then some 2 else (commentEnd? cs).map (· + 1)

/-- The number of characters up to and including the closing quote of a literal. A backslash takes
the character behind it along, and only a backtick literal goes on over a line end. -/
def literalEnd? (quote : Char) : List Char → Option Nat
  | [] => none
  | c :: cs =>
    if c = '\\' then
      match cs with
      | _ :: rest => (literalEnd? quote rest).map (· + 2)
      | [] => none
    else if c = quote then some 1
    else if c = '\n' && quote ≠ '`' then none
    else (literalEnd? quote cs).map (· + 1)

/-- Holds of the three quotes. -/
def isQuote (c : Char) : Bool :=
  c == '\'' || c == '"' || c == '`'

/-- The comment or literal at the start of a text, and its length. -/
def regionAt? (cs : List Char) : Option (RegionKind × Nat) :=
  match cs with
  | '/' :: '*' :: body =>
    match body with
    | '*' :: inner =>
      if inner.head? = some '/' then some (.comment, 4)
      else (commentEnd? inner).map fun n => (.docComment, n + 3)
    | _ => (commentEnd? body).map fun n => (.comment, n + 2)
  | '/' :: '/' :: body => some (.comment, 2 + (body.takeWhile (· != '\n')).length)
  | c :: body =>
    if isQuote c then (literalEnd? c body).map fun n => (.literal, n + 1) else none
  | [] => none

/-- A comment or literal of a source. -/
abbrev Region := Text.Hit RegionKind

/-- The comments and literals of a source, in order. -/
def regions (cs : List Char) : List Region :=
  Text.hits (fun _ rest => regionAt? rest) cs

/-- Holds when an offset lies in one of the regions: only the last that starts no later can hold
it. -/
def covers (rs : List Region) (offset : Nat) : Bool :=
  match (rs.takeWhile (·.start ≤ offset)).getLast? with
  | some r => offset < r.stop
  | none => false

end DocSignature.Source
