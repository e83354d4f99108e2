import DocSignature.Grammar.Machine
import DocSignature.Text.Blank
import DocSignature.Text.Cut
import DocSignature.TypeExpr.Basic

/-!
# Reading type expressions

A type is a union of terms, a term an atom with any number of `[]` behind it, and an atom a dotted
name, a star or a type in parentheses. The star is the type `any`, parentheses leave no trace, and a
union that is a member of a union is spread out in its place.
-/

namespace DocSignature.TypeExpr

/-- A term and the place where it starts, parentheses included. -/
structure Term where
  expr : TypeExpr
  start : Loc

/-- What the reader has before it. -/
inductive Mode where
  /-- An atom must come. -/
  | operand
  /-- A term was read and may go on. -/
  | operator (term : Term)
  /-- An opening bracket was read behind a term. -/
  | bracket (term : Term)

/-- The state of the reader. Terms that wait for the rest of their union are kept latest first, and
an open parenthesis is kept with its place and the terms that waited before it. -/
structure State where
  groups : List (Loc × List Term)
  waiting : List Term
  mode : Mode

/-- The members that a type adds to a union around it. -/
def spread : TypeExpr → List TypeExpr
  | .union _ members => members
  | e => [e]

/-- The type of a finished union, its last term given first: a single term stands for itself. -/
def join (last : Term) (waiting : List Term) : TypeExpr :=
  match (last :: waiting).reverse with
  | head :: second :: rest =>
    .union head.start ((head :: second :: rest).flatMap fun t => spread t.expr)
  | _ => last.expr

/-- The path of a dotted name. -/
def refOf (loc : Loc) (name : List Char) : TypeRef :=
  match (Text.cut '.' name).map String.ofList with
  | base :: rest => ⟨loc, base, rest⟩
  | [] => ⟨loc, "", []⟩

/-- The type that the star stands for. -/
def anyName : String := "any"

/-- The terminals that may come next. -/
def accepts (s : State) : List Grammar.Terminal :=
  match s.mode with
  | .operand => [.dottedName, .star, .leftParen]
  | .operator _ =>
    if s.groups.isEmpty then [.bar, .leftBracket] else [.bar, .leftBracket, .rightParen]
  | .bracket _ => [.rightBracket]

/-- The state after a token of a type that starts at `base`. -/
def shift (base : Loc) (s : State) (token : Grammar.Token) : State :=
  let loc := base.within token.loc
  match s.mode, token.terminal with
  | .operand, .dottedName => { s with mode := .operator ⟨.ref (refOf loc token.text), loc⟩ }
  | .operand, .star => { s with mode := .operator ⟨.ref ⟨loc, anyName, []⟩, loc⟩ }
  | .operand, .leftParen =>
    { groups := (loc, s.waiting) :: s.groups, waiting := [], mode := .operand }
  | .operator term, .bar => { s with waiting := term :: s.waiting, mode := .operand }
  | .operator term, .leftBracket => { s with mode := .bracket term }
  | .operator term, .rightParen =>
    match s.groups with
    | (start, waiting) :: groups =>
      { groups, waiting, mode := .operator ⟨join term s.waiting, start⟩ }
    | [] => s
  | .bracket term, .rightBracket =>
    { s with mode := .operator ⟨.array term.start term.expr, term.start⟩ }
  | _, _ => s

/-- The type that was read, once no parenthesis is open and a term is complete. -/
def result (s : State) : Option TypeExpr :=
  match s.mode, s.groups with
  | .operator term, [] => some (join term s.waiting)
  | _, _ => none

/-- The reader of types that start at `base`. -/
def machine (base : Loc) : Grammar.Machine State TypeExpr :=
  { accepts, shift := shift base, result }

/-- Why a text is not a type. -/
inductive ReadError where
  | blank
  | malformed (text : List Char) (cause : Grammar.SyntaxError)

def ReadError.message : ReadError → String
  | .blank => "empty type expression"
  | .malformed text cause =>
    "unsupported type expression '" ++ String.ofList (Text.trim text) ++ "' (invalid type: " ++
      cause.message ++ ")"

/-- The type written by a text that starts at `base`. -/
def read (base : Loc) (cs : List Char) : Except ReadError TypeExpr :=
  if Text.allBlank cs then .error .blank
  else
    match (machine base).run ⟨[], [], .operand⟩ cs with
    | .ok e => .ok e
    | .error cause => .error (.malformed cs cause)

end DocSignature.TypeExpr
