import DocSignature.ImportTable

/-!
# Resolved types

A type in which every name is known to stand for an imported symbol, a member of an imported module,
or nothing that was imported. A name that is used against its import is reported and marked invalid.
-/

namespace DocSignature

/-- What a name in a type stands for. -/
inductive RefTarget where
  /-- Nothing that was imported. -/
  | unbound
  /-- An imported symbol. -/
  | symbol (binding : Binding) (name : String)
  /-- A member of an imported module. -/
  | member (binding : Binding) (first : String) (more : List String)
  /-- A use that the import does not allow. -/
  | invalid

namespace RefTarget

/-- The binding of a name that was imported and is used well. -/
def binding? : RefTarget → Option Binding
  | .symbol binding _ | .member binding _ _ => some binding
  | _ => none

/-- The path into an imported module. -/
def memberPath : RefTarget → List String
  | .member _ first more => first :: more
  | _ => []

def isInvalid : RefTarget → Bool
  | .invalid => true
  | _ => false

end RefTarget

/-- A type whose names are resolved. -/
inductive Resolved where
  | ref (name : TypeRef) (target : RefTarget)
  | array (loc : Loc) (element : Resolved)
  | union (loc : Loc) (members : List Resolved)

namespace Resolved

mutual

/-- The type as it was written. -/
def source : Resolved → TypeExpr
  | .ref name _ => .ref name
  | .array loc element => .array loc element.source
  | .union loc members => .union loc (sources members)

def sources : List Resolved → List TypeExpr
  | [] => []
  | member :: rest => member.source :: sources rest

end

/-- The diagnostic about a member of an imported symbol. -/
def memberDiagnostic (file : Option String) (name : TypeRef) (binding : Binding)
    (symbol : String) : Diagnostic :=
  { kind := .memberOfNamedImport
    message := "'" ++ name.text ++ "' accesses a member of '" ++ name.base ++
      "', which is a named import of '" ++ symbol ++ "' from '" ++ binding.moduleName ++
      "', not a namespace"
    phase := some .resolve
    span := Span.ofLoc name.loc file }

/-- The diagnostic about a module that is used as a type. -/
def moduleDiagnostic (file : Option String) (name : TypeRef) (binding : Binding) : Diagnostic :=
  { kind := .namespaceAsType
    message := "'" ++ name.base ++ "' is a namespace import of '" ++ binding.moduleName ++
      "' and is not a type; qualify it, e.g. '" ++ name.base ++ ".SomeType'"
    phase := some .resolve
    span := Span.ofLoc name.loc file }

/-- What a name stands for, and what there is to say about its use. -/
def resolveRef (table : ImportTable) (file : Option String) (name : TypeRef) :
    RefTarget × List Diagnostic :=
  match table.lookup name.base with
  | none => (.unbound, [])
  | some binding =>
    match binding.target, name.rest with
    | .symbol symbol, [] => (.symbol binding symbol, [])
    | .symbol symbol, _ :: _ => (.invalid, [memberDiagnostic file name binding symbol])
    | .whole, [] => (.invalid, [moduleDiagnostic file name binding])
    | .whole, first :: more => (.member binding first more, [])

mutual

/-- A type with its names resolved, and the diagnostics in the order of the names. -/
def resolve (table : ImportTable) (file : Option String) : TypeExpr → Resolved × List Diagnostic
  | .ref name =>
    let (target, diagnostics) := resolveRef table file name
    (.ref name target, diagnostics)
  | .array loc element =>
    let (inner, diagnostics) := resolve table file element
    (.array loc inner, diagnostics)
  | .union loc members =>
    let (inner, diagnostics) := resolveAll table file members
    (.union loc inner, diagnostics)

def resolveAll (table : ImportTable) (file : Option String) :
    List TypeExpr → List Resolved × List Diagnostic
  | [] => ([], [])
  | member :: rest =>
    let (first, here) := resolve table file member
    let (others, later) := resolveAll table file rest
    (first :: others, here ++ later)

end

end Resolved

end DocSignature
