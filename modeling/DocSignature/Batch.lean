import DocSignature.Conversion
import DocSignature.Log

/-!
# Converting many sources

Sources are cut into batches, in order. With one worker, or one batch, they are converted one after
the other, and a fault ends the run. With more, each batch stands for itself: one with a fault gives
back its sources as they are, each with a diagnostic that says so.
-/

namespace DocSignature

/-- A source and the path it was read from. -/
structure SourceFile where
  path : String
  text : String

/-- Sources that one worker converts. -/
structure Batch where
  worker : String
  sources : List SourceFile

/-- The results of converting many sources, in their order, and what was logged meanwhile. -/
structure BatchReport where
  results : List Conversion
  log : String

namespace Batch

/-- The size of a batch when nothing else is said. -/
def defaultSize : Int := 10

/-- A list cut into runs of `size` items, the last one perhaps shorter; a size of zero counts as
one. -/
def runs (size : Nat) : List α → List (List α)
  | [] => []
  | a :: rest => (a :: rest.take (size - 1)) :: runs size (rest.drop (size - 1))
termination_by items => items.length
decreasing_by simp only [List.length_cons, List.length_drop]; omega

/-- The label of a worker: its number in four hexadecimal digits. -/
def workerLabel (n : Nat) : String :=
  "Worker#" ++ String.ofList ((Text.hex 4 n).map Char.toUpper)

/-- Batches of a size of zero cannot be cut. -/
inductive ZeroSize where
  | zeroSize

def ZeroSize.message : ZeroSize → String
  | .zeroSize => "range() arg 3 must not be zero"

/-- Runs of sources as batches, with workers numbered from one. -/
def number (parts : List (List SourceFile)) : List Batch :=
  parts.zipIdx.map fun (sources, i) => ⟨workerLabel (i + 1), sources⟩

/-- Sources cut into batches; a negative size gives none. -/
def cut (size : Int) (sources : List SourceFile) : Except ZeroSize (List Batch) :=
  if size = 0 then .error .zeroSize
  else if size < 0 then .ok []
  else .ok (number (runs size.toNat sources))

/-! ## One batch -/

/-- What is logged about a converted source. -/
def summary (c : Conversion) : String :=
  let file := match c.file with
    | some name => if name = "" then "<source>" else name
    | none => "<source>"
  file ++ ": " ++ toString c.bindings ++ " import binding(s), " ++ toString c.headers ++
    " header(s) rewritten, " ++ toString c.diagnostics.length ++ " diagnostic(s)"

/-- Sources converted one after the other up to the first fault, and what was logged meanwhile. -/
def convertEach (log : Log) (language : Language) (typeMap : TypeMap) :
    List SourceFile → String × Except Header.ParamFault (List Conversion)
  | [] => ("", .ok [])
  | source :: rest =>
    match Conversion.convert ⟨language, typeMap, some source.path⟩ source.text with
    | .error e => ("", .error e)
    | .ok c =>
      let (more, results) := convertEach log language typeMap rest
      (log.line .debug (summary c) ++ more, results.map (c :: ·))

/-- A batch converted, and what was logged meanwhile. -/
def convert (log : Log) (language : Language) (typeMap : TypeMap) (b : Batch) :
    String × Except Header.ParamFault (List Conversion) :=
  let (text, results) := convertEach log language typeMap b.sources
  (log.line .debug ("translating " ++ toString b.sources.length ++ " source(s)") ++ text, results)

/-! ## All batches -/

/-- Batches converted one after the other; a fault ends the run. -/
def convertInTurn (log : Log) (language : Language) (typeMap : TypeMap) :
    List Batch → Except Header.ParamFault BatchReport
  | [] => .ok ⟨[], ""⟩
  | b :: rest =>
    match convert log language typeMap b with
    | (_, .error e) => .error e
    | (text, .ok results) =>
      (convertInTurn log language typeMap rest).map fun more =>
        ⟨results ++ more.results, text ++ more.log⟩

/-- The source of a batch that had a fault: its text as it is, and a diagnostic. -/
def unconverted (worker : String) (e : Header.ParamFault) (source : SourceFile) : Conversion :=
  { text := source.text
    diagnostics :=
      [{ kind := .internalError
         message := "translation failed in " ++ worker ++ ": " ++ e.kind ++ ": " ++ e.message
         phase := some .driver
         span := { file := some source.path } }]
    file := some source.path }

/-- The results of a batch, with its sources as they are when it had a fault. -/
def settle (b : Batch) : Except Header.ParamFault (List Conversion) → List Conversion
  | .ok results => results
  | .error e => b.sources.map (unconverted b.worker e)

/-- What is logged about a batch once all are done. -/
def failureLine (log : Log) (b : Batch) : Except Header.ParamFault (List Conversion) → String
  | .ok _ => ""
  | .error e => log.line .error (b.worker ++ " failed: " ++ e.message)

/-- Each batch converted by a worker of its own, whose entries carry its label. Faults are logged
once all batches are done. -/
def convertApart (log : Log) (language : Language) (typeMap : TypeMap) (batches : List Batch) :
    BatchReport :=
  let outcomes := batches.map fun b => (b, convert (log.labelled b.worker) language typeMap b)
  { results := outcomes.flatMap fun (b, _, results) => settle b results
    log := "".intercalate (outcomes.map fun (_, text, _) => text) ++
      "".intercalate (outcomes.map fun (b, _, results) => failureLine log b results) }

/-- How many sources are converted: to which language, by how many workers, in which batches. -/
structure Job where
  language : Language
  typeMap : TypeMap := []
  workers : Int := 1
  batchSize : Option Int := none

/-- The size of the batches of a job; none given, or zero, is the default. -/
def Job.size (job : Job) : Int :=
  match job.batchSize with
  | some n => if n = 0 then defaultSize else n
  | none => defaultSize

/-- What is logged when a job starts. -/
def Job.opening (job : Job) (count : Nat) : String :=
  "Translating " ++ toString count ++ " source(s) to " ++ job.language.label ++ " using " ++
    toString job.workers ++ " worker(s) (in batches of " ++ toString job.size ++ ")"

/-- The batches of a job. -/
def Job.batches (job : Job) (sources : List SourceFile) : List Batch :=
  match cut job.size sources with
  | .ok batches => batches
  | .error _ => []

/-- Many sources converted; the results are in the order of the sources. -/
def convertAll (log : Log) (job : Job) (sources : List SourceFile) :
    Except Header.ParamFault BatchReport :=
  let batches := job.batches sources
  let opening := log.line .info (job.opening sources.length)
  let report :=
    if job.workers ≤ 1 || batches.length ≤ 1 then
      convertInTurn log job.language job.typeMap batches
    else .ok (convertApart log job.language job.typeMap batches)
  report.map fun r => ⟨r.results, opening ++ r.log⟩

end Batch

end DocSignature
