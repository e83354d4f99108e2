import DocSignature.Grammar.Terminal
import DocSignature.Loc
import DocSignature.Text.Line
import DocSignature.Text.Quoted

/-!
# Reading by context

A machine reads a text token by token. Its state says which terminals it accepts, only those are
looked for, and a token that was found takes it to the next state. When none of them is there, the
error names the token that stands there instead, or the character when there is no token at all.
-/

namespace DocSignature.Grammar

/-- A terminal with its text and place. -/
structure Token where
  terminal : Terminal
  text : List Char
  loc : Loc

/-- Why a text cannot be read. -/
inductive SyntaxError where
  | unexpectedToken (label : String) (text : List Char) (loc : Loc)
  | unexpectedChar (c : Char) (loc : Loc)

/-- The message about an error, on one line. -/
def SyntaxError.message : SyntaxError → String
  | .unexpectedToken label text loc =>
    "Unexpected token Token('" ++ label ++ "', " ++ String.ofList (Text.quoted text) ++
      ") at line " ++ toString loc.line ++ ", column " ++ toString loc.column ++ "."
  | .unexpectedChar c loc =>
    String.ofList <| Text.firstLine <|
      ("No terminal matches '" ++ String.singleton c ++
        "' in the current parser context, at line " ++ toString loc.line ++ " col " ++
        toString loc.column).toList

/-- A reader with states in `σ` and results in `ρ`. -/
structure Machine (σ ρ : Type) where
  /-- The terminals that may come next. -/
  accepts : σ → List Terminal
  /-- The state after an accepted token. -/
  shift : σ → Token → σ
  /-- The result, in a state in which the text may end. -/
  result : σ → Option ρ

/-- The error at a place where no accepted terminal stands. -/
def refuse (c : Char) (cs : List Char) (loc : Loc) : SyntaxError :=
  match anywhere? (c :: cs) with
  | some (terminal, size) => .unexpectedToken terminal.label ((c :: cs).take size) loc
  | none => .unexpectedChar c loc

/-- The result of reading a text from the place `loc` on. The last token began at `last`, and the
first `skip` characters belong to it. -/
def Machine.runFrom (m : Machine σ ρ) (state : σ) (last loc : Loc) :
    (skip : Nat) → List Char → Except SyntaxError ρ
  | _, [] =>
    match m.result state with
    | some r => .ok r
    | none => .error (.unexpectedToken "$END" [] last)
  | skip + 1, c :: cs => m.runFrom state last (loc.next c) skip cs
  | 0, c :: cs =>
    if isSpace c then m.runFrom state last (loc.next c) 0 cs
    else
      match firstOf? (m.accepts state) (c :: cs) with
      | some (terminal, size) =>
        let token : Token := ⟨terminal, (c :: cs).take size, loc⟩
        m.runFrom (m.shift state token) loc (loc.next c) (size - 1) cs
      | none => .error (refuse c cs loc)

/-- The result of reading a whole text. -/
def Machine.run (m : Machine σ ρ) (start : σ) (cs : List Char) : Except SyntaxError ρ :=
  m.runFrom start .first .first 0 cs

end DocSignature.Grammar
