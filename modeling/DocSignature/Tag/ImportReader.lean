import DocSignature.Tag.Basic
import DocSignature.Text.Search

/-!
# Reading imports

An import names what it brings in, between braces and separated by commas, or a star for the whole
module, and then the module in quotes.
-/

namespace DocSignature.Tag

/-- What the reader of an import has before it. -/
inductive ImportState where
  /-- Nothing was read yet. -/
  | start
  /-- A name or the closing brace must come. -/
  | item (items : List Specifier)
  /-- A name was read, and may be given another name. -/
  | itemRead (items : List Specifier) (last : Specifier)
  /-- The other name must come. -/
  | itemRenaming (items : List Specifier) (last : Specifier)
  /-- A comma or the closing brace must come. -/
  | itemRenamed (items : List Specifier)
  /-- A star was read. -/
  | star
  /-- The name of the whole module must come. -/
  | starRenaming
  /-- The word `from` must come. -/
  | clauseRead (clause : ImportClause)
  /-- The module must come. -/
  | source (clause : ImportClause)
  /-- All was read. -/
  | complete (clause : ImportClause) (moduleName : String)

/-- The terminals that may come next. -/
def ImportState.accepts : ImportState → List Grammar.Terminal
  | .start => [.leftBrace, .star]
  | .item _ => [.name, .rightBrace]
  | .itemRead _ _ => [.asWord, .comma, .rightBrace]
  | .itemRenaming _ _ => [.name]
  | .itemRenamed _ => [.comma, .rightBrace]
  | .star => [.asWord]
  | .starRenaming => [.name]
  | .clauseRead _ => [.fromWord]
  | .source _ => [.string]
  | .complete _ _ => []

/-- The state after a token of an import whose text starts at `base`. -/
def ImportState.shift (base : Loc) (s : ImportState) (token : Grammar.Token) : ImportState :=
  match s, token.terminal with
  | .start, .leftBrace => .item []
  | .start, .star => .star
  | .item items, .name =>
    let name := String.ofList token.text
    .itemRead items ⟨name, name, base.within token.loc⟩
  | .item items, .rightBrace => .clauseRead (.named items)
  | .itemRead items last, .asWord => .itemRenaming items last
  | .itemRead items last, .comma => .item (items ++ [last])
  | .itemRead items last, .rightBrace => .clauseRead (.named (items ++ [last]))
  | .itemRenaming items last, .name =>
    .itemRenamed (items ++ [{ last with localName := String.ofList token.text }])
  | .itemRenamed items, .comma => .item items
  | .itemRenamed items, .rightBrace => .clauseRead (.named items)
  | .star, .asWord => .starRenaming
  | .starRenaming, .name => .clauseRead (.whole (String.ofList token.text))
  | .clauseRead clause, .fromWord => .source clause
  | .source clause, .string => .complete clause (String.ofList (token.text.drop 1).dropLast)
  | _, _ => s

/-- The import that was read. -/
def ImportState.result : ImportState → Option (ImportClause × String)
  | .complete clause moduleName => some (clause, moduleName)
  | _ => none

/-- The reader of imports whose text starts at `base`. -/
def importMachine (base : Loc) : Grammar.Machine ImportState (ImportClause × String) :=
  { accepts := ImportState.accepts, shift := ImportState.shift base, result := ImportState.result }

/-- The number of characters before the brace that closes an opened one, `depth` more being open. -/
def braceEnd? (depth : Nat) : List Char → Option Nat
  | [] => none
  | c :: cs =>
    if c = '{' then (braceEnd? (depth + 1) cs).map (· + 1)
    else if c = '}' then
      match depth with
      | 0 => some 0
      | depth + 1 => (braceEnd? depth cs).map (· + 1)
    else (braceEnd? depth cs).map (· + 1)

/-- Holds unless the first opening brace of a text is never closed. -/
def bracesClose (cs : List Char) : Bool :=
  match cs.dropWhile (· != '{') with
  | _ :: rest => (braceEnd? 0 rest).isSome
  | [] => true

/-- The word `from`, on its own to the left, with a quote behind it. -/
def fromQuote? : Text.Recogniser Unit := fun before cs =>
  if before.any Text.isWordChar then none
  else
    match Text.after? "from".toList cs with
    | some rest =>
      match Text.trimLeft rest with
      | c :: _ => if c = '"' || c = '\'' then some ((), 4) else none
      | [] => none
    | none => none

/-- Holds when a quoted module is announced somewhere in a text. -/
def announcesModule (cs : List Char) : Bool :=
  !(Text.hits fromQuote? cs).isEmpty

/-- The import that a tag at `loc` writes behind its name. -/
def readImport (loc : Loc) (body : List Char) : Except TagError TagBody :=
  if !bracesClose body then .error ⟨.importUnclosed, loc⟩
  else if !announcesModule body then .error ⟨.moduleUnquoted, loc⟩
  else
    match (importMachine (loc.forward "@import".length)).run .start body with
    | .error cause => .error ⟨.importMalformed cause, loc⟩
    | .ok (clause, moduleName) =>
      if moduleName = "" then .error ⟨.moduleEmpty, loc⟩ else .ok (.imports clause moduleName)

end DocSignature.Tag
