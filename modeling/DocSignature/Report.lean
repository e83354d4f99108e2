import DocSignature.Conversion
import DocSignature.Json.Writer

/-!
# Reports

What a run has to say, as lines for a reader or as one value for another program.
-/

namespace DocSignature.Report

/-- A diagnostic as a value. -/
def diagnosticValue (d : Diagnostic) : Json :=
  .obj
    [("kind", .str d.kind.label), ("code", .str d.kind.code),
      ("phase", .ofText (d.phase.map (·.label))), ("message", .str d.message),
      ("severity", .str d.severity.label), ("file", .ofText d.span.file),
      ("line", .ofInt d.span.line), ("column", .ofInt d.span.column),
      ("notes", .arr (d.notes.map .str))]

/-- The entry of a converted source, with the path of its result when it was written. -/
def entry (c : Conversion) (output : Option String) : Json :=
  let file := some (c.file.getD "")
  .obj
    ([("file", .ofText c.file),
        ("diagnostics", .arr (c.diagnostics.map fun d => diagnosticValue (d.inFile file)))] ++
      match output with
      | some path => [("output", .str path)]
      | none => [])

/-- The value about a finished run. -/
def value (exitCode : Nat) (entries : List Json) : Json :=
  .obj [("exit_code", .int exitCode), ("files", .arr entries)]

/-- The value about a run that was refused, perhaps because of a file. -/
def refusalValue (message : String) (file : Option String) : Json :=
  value 2
    [.obj
      [("file", .ofText file),
        ("diagnostics",
          .arr
            [.obj
              [("phase", .str "driver"), ("message", .str message), ("severity", .str "error"),
                ("file", .ofText file), ("line", .null), ("column", .null)]])]]

/-- The line about a run that was refused; without a file the program speaks of itself. -/
def refusalLine (program message : String) (file : Option String) : String :=
  (file.filter (· ≠ "")).getD program ++ ": error: " ++ message

/-- The lines about the diagnostics of a converted source. -/
def lines (c : Conversion) : String :=
  "".intercalate (c.diagnostics.map fun d => (d.inFile c.file).line ++ "\n")

end DocSignature.Report
