import DocSignature.Tag.Reader

/-!
# Doc comments

The doc comments of a source with their tags.
-/

namespace DocSignature

/-- A doc comment and its tags. -/
structure DocComment where
  loc : Loc
  start : Nat
  stop : Nat
  tags : List Tag

namespace DocComment

/-- The imports among the tags. -/
def imports (c : DocComment) : List (ImportClause × String) :=
  c.tags.filterMap fun tag =>
    match tag.body with
    | .imports clause moduleName => some (clause, moduleName)
    | _ => none

/-- The documented parameters, with the places of their tags. -/
def params (c : DocComment) : List (Loc × ParamTag) :=
  c.tags.filterMap fun tag =>
    match tag.body with
    | .param p => some (tag.loc, p)
    | _ => none

/-- The first tag about the return value. -/
def returns? (c : DocComment) : Option (Tag × ReturnsTag) :=
  c.tags.findSome? fun tag =>
    match tag.body with
    | .returns r => some (tag, r)
    | _ => none

/-- The doc comments of a source, and the diagnostics about their tags. -/
def readAll (file : Option String) (cs : List Char) : List DocComment × List Diagnostic :=
  let found := (Source.docBlocks cs).map fun block =>
    let (tags, diagnostics) := Tag.readAll file block.loc block.text
    ((⟨block.loc, block.start, block.stop, tags⟩ : DocComment), diagnostics)
  (found.map (·.1), found.flatMap (·.2))

end DocComment

end DocSignature
