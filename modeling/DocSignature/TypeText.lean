import DocSignature.NamingPolicy
import DocSignature.Resolved

/-!
# Spelling types

The text of a type in a target language. A name that was imported is spelled as what it stands for,
whatever it is called in the file; of a member of a module only the last name counts. A name that is
neither imported nor known to the policy is spelled as it is and reported.
-/

namespace DocSignature.TypeText

/-- The diagnostic about a name that is not known. -/
def unknownDiagnostic (policy : NamingPolicy) (file : Option String) (name : TypeRef) :
    Diagnostic :=
  { kind := .unknownType
    message := "unknown type '" ++ name.text ++ "' (not imported, not a " ++ policy.language ++
      " builtin); emitted as written"
    phase := some .emit
    span := Span.ofLoc name.loc file }

/-- The text of a name, and what there is to say about it. -/
def emitRef (policy : NamingPolicy) (file : Option String) (name : TypeRef) :
    RefTarget → String × List Diagnostic
  | .invalid => (name.text, [])
  | .unbound =>
    match policy.lookup name.text with
    | some _ => (policy.spell name.text, [])
    | none => (name.text, [unknownDiagnostic policy file name])
  | .symbol _ symbol => (policy.spell symbol, [])
  | .member _ first more => (policy.spell (more.getLastD first), [])

mutual

/-- The text of a resolved type, and the diagnostics in the order of its names. -/
def emit (policy : NamingPolicy) (file : Option String) : Resolved → String × List Diagnostic
  | .ref name target => emitRef policy file name target
  | .array _ element =>
    let (text, diagnostics) := emit policy file element
    (policy.array text, diagnostics)
  | .union _ members =>
    let (texts, diagnostics) := emitAll policy file members
    (policy.union texts, diagnostics)

def emitAll (policy : NamingPolicy) (file : Option String) :
    List Resolved → List String × List Diagnostic
  | [] => ([], [])
  | member :: rest =>
    let (text, here) := emit policy file member
    let (texts, later) := emitAll policy file rest
    (text :: texts, here ++ later)

end

/-- The text of a type: what there is to say about the use of imports comes before what there is to
say about unknown names. -/
def ofExpr (table : ImportTable) (policy : NamingPolicy) (file : Option String) (e : TypeExpr) :
    String × List Diagnostic :=
  let (resolved, found) := Resolved.resolve table file e
  let (text, more) := emit policy file resolved
  (text, found ++ more)

end DocSignature.TypeText
