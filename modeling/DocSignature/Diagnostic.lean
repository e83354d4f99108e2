import DocSignature.Loc

/-!
# Diagnostics

What a conversion has to say about a source: a kind with its code and severity, a message, the phase
that found it and the place it is about. A list of diagnostics is sorted by place, and diagnostics
of the same place keep their order.
-/

namespace DocSignature

/-- A place in a file, as far as it is known. -/
structure Span where
  file : Option String := none
  line : Option Int := none
  column : Option Int := none
  endLine : Option Int := none
  endColumn : Option Int := none

namespace Span

/-- The span of a line and a column; an empty file name counts as none. -/
def ofLineColumn (line column : Int) (file : Option String) : Span :=
  { file := file.filter (· ≠ ""), line := some line, column := some column }

/-- The span of a place. -/
def ofLoc (loc : Loc) (file : Option String) : Span :=
  ofLineColumn loc.line loc.column file

/-- The span with its file filled in when it has none. -/
def inFile (span : Span) (file : Option String) : Span :=
  match span.file with
  | some _ => span
  | none => { span with file := file }

/-- File, line and column, as far as they are known. -/
def text (span : Span) : String :=
  let file := match span.file with
    | some name => if name = "" then "<source>" else name
    | none => "<source>"
  match span.line, span.column with
  | some line, some column => file ++ ":" ++ toString line ++ ":" ++ toString column
  | some line, none => file ++ ":" ++ toString line
  | none, _ => file

end Span

namespace Diagnostic

/-- What a diagnostic is about. -/
inductive Kind where
  | malformedTag
  | duplicateBinding
  | memberOfNamedImport
  | namespaceAsType
  | unknownType
  | unmatchedParam
  | internalError
  deriving DecidableEq

namespace Kind

def all : List Kind :=
  [.malformedTag, .duplicateBinding, .memberOfNamedImport, .namespaceAsType, .unknownType,
    .unmatchedParam, .internalError]

def label : Kind → String
  | .malformedTag => "MalformedAnnotation"
  | .duplicateBinding => "DuplicateBindingError"
  | .memberOfNamedImport => "InvalidMemberAccessOnNamedImport"
  | .namespaceAsType => "NamespaceUsedAsType"
  | .unknownType => "UnknownTypeReference"
  | .unmatchedParam => "UnmatchedParamAnnotation"
  | .internalError => "InternalError"

def code : Kind → String
  | .malformedTag => "E-JSDOC-MALFORMED"
  | .duplicateBinding => "E-IMPORT-DUPLICATE"
  | .memberOfNamedImport => "E-TYPE-NAMED-MEMBER"
  | .namespaceAsType => "E-TYPE-NAMESPACE"
  | .unknownType => "W-TYPE-UNKNOWN"
  | .unmatchedParam => "W-PARAM-UNMATCHED"
  | .internalError => "E-INTERNAL"

/-- The kind with a given label. -/
def ofLabel? (label : String) : Option Kind :=
  all.find? fun kind => kind.label = label

end Kind

/-- How much a diagnostic matters. -/
inductive Severity where
  | error
  | warning
  | custom (label : String)
  deriving DecidableEq

namespace Severity

def label : Severity → String
  | .error => "error"
  | .warning => "warning"
  | .custom label => label

def ofLabel (label : String) : Severity :=
  if label = "error" then .error else if label = "warning" then .warning else .custom label

end Severity

/-- The severity of a kind when nothing else is said. -/
def Kind.severity : Kind → Severity
  | .unknownType | .unmatchedParam => .warning
  | _ => .error

/-- The phase of a conversion that found something to say. -/
inductive Phase where
  | parser
  | imports
  | resolve
  | emit
  | driver
  | custom (label : String)
  deriving DecidableEq

namespace Phase

def label : Phase → String
  | .parser => "parser"
  | .imports => "imports"
  | .resolve => "resolve"
  | .emit => "emit"
  | .driver => "driver"
  | .custom label => label

def ofLabel (label : String) : Phase :=
  match [Phase.parser, .imports, .resolve, .emit, .driver].find? (·.label = label) with
  | some phase => phase
  | none => .custom label

end Phase

end Diagnostic

/-- Something to say about a source. -/
structure Diagnostic where
  kind : Diagnostic.Kind
  message : String
  phase : Option Diagnostic.Phase := none
  severity : Diagnostic.Severity := kind.severity
  span : Span := {}
  notes : List String := []

namespace Diagnostic

def isError (d : Diagnostic) : Bool :=
  d.severity = .error

/-- The diagnostic with its file filled in when it has none. -/
def inFile (d : Diagnostic) (file : Option String) : Diagnostic :=
  { d with span := d.span.inFile file }

/-- The diagnostic as one line for a reader. -/
def line (d : Diagnostic) : String :=
  d.span.text ++ ": " ++ d.severity.label ++ ": [" ++ d.kind.label ++ "] " ++ d.message

/-- The line under which a diagnostic without one is sorted: `2^30`. -/
def lateLine : Int := 1073741824

/-- The line by which diagnostics are sorted. -/
def sortLine (d : Diagnostic) : Int :=
  d.span.line.getD lateLine

/-- The column by which diagnostics of one line are sorted. -/
def sortColumn (d : Diagnostic) : Int :=
  d.span.column.getD 0

/-- Holds when `a` may stand before `b`. -/
def notAfter (a b : Diagnostic) : Bool :=
  a.sortLine < b.sortLine || (a.sortLine == b.sortLine && a.sortColumn ≤ b.sortColumn)

/-- Diagnostics by line and column; those of the same place keep their order. -/
def sort (ds : List Diagnostic) : List Diagnostic :=
  ds.mergeSort notAfter

end Diagnostic

end DocSignature
