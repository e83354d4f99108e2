import DocSignature.Text.Blank
import DocSignature.Text.Word

/-!
# Terminals

The words and marks of the notation inside a tag. Which of them are looked for at a place depends
on what may follow there, so `from` and `as` need no boundary behind them where a word is expected,
and are ordinary names where a name is.
-/

namespace DocSignature.Grammar

/-- A kind of word or mark. -/
inductive Terminal where
  | fromWord
  | asWord
  | star
  | name
  | dottedName
  | string
  | leftBrace
  | rightBrace
  | leftBracket
  | rightBracket
  | leftParen
  | rightParen
  | comma
  | bar
  deriving DecidableEq

/-- The name of a terminal in messages. -/
def Terminal.label : Terminal → String
  | .fromWord => "FROM"
  | .asWord => "AS"
  | .star => "STAR"
  | .name => "NAME"
  | .dottedName => "QUALNAME"
  | .string => "STRING"
  | .leftBrace => "LBRACE"
  | .rightBrace => "RBRACE"
  | .leftBracket => "LSQB"
  | .rightBracket => "RSQB"
  | .leftParen => "LPAR"
  | .rightParen => "RPAR"
  | .comma => "COMMA"
  | .bar => "VBAR"

/-- Blanks between words and marks. -/
def isSpace (c : Char) : Bool :=
  c == ' ' || c == '\t' || c == '\x0c' || c == '\r' || c == '\n'

/-- The length of the word when the text starts with it. -/
def wordSize? (word : String) (cs : List Char) : Option Nat :=
  if word.toList.isPrefixOf cs then some word.length else none

/-- The length of the mark when the text starts with it. -/
def markSize? (mark : Char) : List Char → Option Nat
  | c :: _ => if c = mark then some 1 else none
  | [] => none

/-- The length of the name at the start of the text. -/
def nameSize? : List Char → Option Nat
  | c :: cs => if Text.isNameStart c then some (1 + (cs.takeWhile Text.isPlainNameChar).length)
    else none
  | [] => none

/-- How far a dotted name goes on: through name characters, and through dots before a name. -/
def dottedTail : List Char → Nat
  | [] => 0
  | c :: cs =>
    if Text.isPlainNameChar c then 1 + dottedTail cs
    else if c = '.' then
      match cs with
      | d :: _ => if Text.isNameStart d then 1 + dottedTail cs else 0
      | [] => 0
    else 0

/-- The length of the dotted name at the start of the text. -/
def dottedNameSize? : List Char → Option Nat
  | c :: cs => if Text.isNameStart c then some (1 + dottedTail cs) else none
  | [] => none

/-- The length of the string at the start of the text: two equal quotes, neither that quote nor a
line feed between them. -/
def stringSize? : List Char → Option Nat
  | quote :: cs =>
    if quote = '"' || quote = '\'' then
      let body := cs.takeWhile fun c => c != quote && c != '\n'
      if (cs.drop body.length).head? = some quote then some (body.length + 2) else none
    else none
  | [] => none

/-- The length of a terminal at the start of the text. -/
def Terminal.size? : Terminal → List Char → Option Nat
  | .fromWord => wordSize? "from"
  | .asWord => wordSize? "as"
  | .star => markSize? '*'
  | .name => nameSize?
  | .dottedName => dottedNameSize?
  | .string => stringSize?
  | .leftBrace => markSize? '{'
  | .rightBrace => markSize? '}'
  | .leftBracket => markSize? '['
  | .rightBracket => markSize? ']'
  | .leftParen => markSize? '('
  | .rightParen => markSize? ')'
  | .comma => markSize? ','
  | .bar => markSize? '|'

/-- The first of some terminals that the text starts with, and its length. -/
def firstOf? (terminals : List Terminal) (cs : List Char) : Option (Terminal × Nat) :=
  terminals.findSome? fun t => (t.size? cs).map fun size => (t, size)

/-- The terminals that are told apart without context, names aside. -/
def plainTerminals : List Terminal :=
  [.string, .star, .leftBrace, .rightBrace, .leftBracket, .rightBracket, .leftParen, .rightParen,
    .comma, .bar]

/-- The terminal that a text starts with when nothing is known about its place: the longest dotted
name, unless that is exactly `from` or `as`, or one of the plain ones. -/
def anywhere? (cs : List Char) : Option (Terminal × Nat) :=
  match dottedNameSize? cs with
  | some size =>
    let word := cs.take size
    if word = "from".toList then some (.fromWord, size)
    else if word = "as".toList then some (.asWord, size)
    else some (.dottedName, size)
  | none => firstOf? plainTerminals cs

end DocSignature.Grammar
