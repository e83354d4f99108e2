import DocSignature.Diagnostic
import DocSignature.Tag.Basic

/-!
# Imported names

The names that the imports of a file bring in. Of two imports under one name the first one counts,
and each later one is reported.
-/

namespace DocSignature

/-- What a name in a file stands for in its module. -/
inductive BindingTarget where
  | symbol (name : String)
  | whole

/-- A name in a file and what it was imported as. -/
structure Binding where
  localName : String
  moduleName : String
  target : BindingTarget
  loc : Option Loc

namespace Binding

/-- The imported symbol, when the name stands for one. -/
def symbol? (b : Binding) : Option String :=
  match b.target with
  | .symbol name => some name
  | .whole => none

end Binding

/-- Why a list of bindings makes no table. -/
inductive BindingError where
  | symbolMissing (localName : String)
  | symbolOfWhole (localName : String)
  | duplicate (localName : String)

def BindingError.message : BindingError → String
  | .symbolMissing name => "named import binding '" ++ name ++ "' needs an imported symbol"
  | .symbolOfWhole name => "namespace import binding '" ++ name ++ "' cannot name a symbol"
  | .duplicate name => "duplicate local name '" ++ name ++ "'"

namespace Binding

/-- A binding of a symbol, which must have a name. -/
def named (localName moduleName : String) (symbol : Option String) (loc : Option Loc) :
    Except BindingError Binding :=
  match symbol with
  | some name =>
    if name = "" then .error (.symbolMissing localName)
    else .ok ⟨localName, moduleName, .symbol name, loc⟩
  | none => .error (.symbolMissing localName)

/-- A binding of a whole module, which has no symbol. -/
def whole (localName moduleName : String) (symbol : Option String) (loc : Option Loc) :
    Except BindingError Binding :=
  match symbol with
  | some _ => .error (.symbolOfWhole localName)
  | none => .ok ⟨localName, moduleName, .whole, loc⟩

end Binding

/-- The imported names of a file, in the order of their first import. -/
structure ImportTable where
  bindings : List Binding

namespace ImportTable

def empty : ImportTable := ⟨[]⟩

/-- The binding of a name. -/
def lookup (t : ImportTable) (name : String) : Option Binding :=
  t.bindings.find? fun b => b.localName = name

/-- The number of names. -/
def size (t : ImportTable) : Nat := t.bindings.length

/-- The table with a binding of a new name added. -/
def insert (t : ImportTable) (b : Binding) : ImportTable :=
  ⟨t.bindings ++ [b]⟩

/-- Adds bindings in turn; the later bindings of a name are given back, each with the binding that
stays. -/
def addAll (t : ImportTable) : List Binding → ImportTable × List (Binding × Binding)
  | [] => (t, [])
  | b :: rest =>
    match t.lookup b.localName with
    | some first =>
      let (table, repeated) := t.addAll rest
      (table, (first, b) :: repeated)
    | none => (t.insert b).addAll rest

/-- The table of some bindings, no two of which have the same name. -/
def ofBindings (bs : List Binding) : Except BindingError ImportTable :=
  match empty.addAll bs with
  | (t, []) => .ok t
  | (_, (_, b) :: _) => .error (.duplicate b.localName)

/-- The bindings that a tag brings in. -/
def bindingsOf (tag : Tag) : List Binding :=
  match tag.body with
  | .imports (.whole localName) moduleName => [⟨localName, moduleName, .whole, some tag.loc⟩]
  | .imports (.named specifiers) moduleName =>
    specifiers.map fun s => ⟨s.localName, moduleName, .symbol s.imported, some s.loc⟩
  | _ => []

/-- The diagnostic about a later binding of a name. -/
def duplicateDiagnostic (file : Option String) (first later : Binding) : Diagnostic :=
  let line := match first.loc with
    | some loc => toString loc.line
    | none => "?"
  { kind := .duplicateBinding
    message := "'" ++ later.localName ++ "' is already imported (line " ++ line ++
      "); keeping the first binding"
    phase := some .imports
    span := match later.loc with
      | some loc => Span.ofLoc loc file
      | none => { file := file }
    notes := ["first import from '" ++ first.moduleName ++ "'"] }

/-- The table of all imports among some tags, and the diagnostics about repeated names. -/
def ofTags (file : Option String) (tags : List Tag) : ImportTable × List Diagnostic :=
  let (table, repeated) := empty.addAll (tags.flatMap bindingsOf)
  (table, repeated.map fun (first, later) => duplicateDiagnostic file first later)

end ImportTable

end DocSignature
