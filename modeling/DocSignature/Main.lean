import DocSignature.Run

/-!
# The command line program

Looks at the files that a command line names, decides what to do, and does it.
-/

namespace DocSignature.Main

/-- What is printed for a reader who asks for help. -/
def helpText : String :=
  "usage: jsdocx [-h] [-l LANGUAGE] [-o DIRECTORY] [--json] [--config FILE] [-j WORKERS]\n" ++
  "              [--batch-size SIZE] [-v] [-q] source [source ...]\n\n" ++
  "Writes documented function headers anew in another language.\n\n" ++
  "  -l, --language    python, go, java or csharp\n" ++
  "  -o, --output-dir  where the results are written\n" ++
  "  --json            report as JSON\n" ++
  "  --config          a file with settings\n" ++
  "  -j, --workers     the number of workers\n" ++
  "  --batch-size      the number of sources in a batch\n" ++
  "  -v, --verbose     log more; may be repeated\n" ++
  "  -q, --quiet       log warnings and errors only\n"

/-- The files with a node at a place and directories above it. -/
def putDeep (tree : FileTree) (place : List String) (node : FileNode) : FileTree :=
  let above := (List.range place.length).map fun n => place.take n
  (above.foldl (fun t d => t.put d .directory) tree).put place node

/-- The files with directories at all places that a path goes through, also those that a double dot
leaves again. -/
def putWay (tree : FileTree) (current : List String) (path : PathName) : FileTree :=
  let places := (List.range path.parts.length).map fun n =>
    PathName.placeFrom current { path with parts := path.parts.take n }
  places.foldl (fun t place => putDeep t place .directory) tree

/-- Holds of the number of a problem, with either sign. -/
def isCode (problem : FileProblem) (code : UInt32) : Bool :=
  code = problem.number.toUInt32 || 0 - code = problem.number.toUInt32

/-- The files with what was found at a path: its bytes, or why it has none. Reasons that are not
about the kind of a file are not recorded. -/
def recordRead (tree : FileTree) (current : List String) (path : PathName)
    (found : Except IO.Error ByteArray) : Except IO.Error FileTree :=
  let place := path.placeFrom current
  match found with
  | .ok bytes => .ok (putDeep (putWay tree current path) place (.file bytes.toList))
  | .error (.noFileOrDirectory ..) => .ok tree
  | .error (.inappropriateType name code text) =>
    if isCode .notDirectory code then .ok (putDeep tree place.dropLast (.file []))
    else if isCode .isDirectory code then
      .ok (putDeep (putWay tree current path) place .directory)
    else .error (.inappropriateType name code text)
  | .error (.invalidArgument name code text) =>
    if isCode .nameTooLong code then
      let short := place.takeWhile (·.utf8ByteSize ≤ FileTree.maxNameSize)
      .ok (putDeep tree short .directory)
    else .error (.invalidArgument name code text)
  | .error e => .error e

/-- The number of processors in a list of them. -/
def processorsIn (list : String) : Option Int :=
  let found := (Text.lines list.toList).filter fun l => "processor".toList.isPrefixOf l
  if found.isEmpty then none else some found.length

/-- The path of the settings that an invocation names. -/
def configIn (inv : Invocation) : List PathName :=
  match inv.config with
  | some (.value path) => [path]
  | _ => []

/-- Where paths lead, given what the system says about some of them. The others are taken to have no
links in them. -/
def resolveBy (known : List (PathName × List String)) (current : List String) (path : PathName) :
    List String :=
  (known.lookup path).getD (path.placeFrom current)

/-- What a run finds at the paths that its command line names. -/
def look (arguments : List String) : IO World := do
  let current := (PathName.ofText (toString (← IO.currentDir))).parts
  let named := match CommandLine.parse arguments with
    | .ok inv => configIn inv ++ inv.sources
    | .error _ => []
  let mut tree := putDeep {} current .directory
  let mut known := []
  for path in named do
    let found ← (IO.FS.readBinFile path.text).toBaseIO
    tree ← IO.ofExcept (recordRead tree current path found)
    if let .ok place ← (IO.FS.realPath path.text).toBaseIO then
      known := (path, (PathName.ofText (toString place)).parts) :: known
  let processors ← (IO.FS.readFile "/proc/cpuinfo").toBaseIO
  return {
    tree, current
    surroundings := {
      override := ← IO.getEnv Config.workerVariable
      processors := match processors with
        | .ok list => processorsIn list
        | .error _ => none }
    resolve := resolveBy known current }

/-- Does to the real files what a run did to the files it found. -/
def carryOut (acts : List Run.Act) : IO Unit := do
  for act in acts do
    match act with
    | .makeDirectory path => IO.FS.createDirAll path.text
    | .write saving => IO.FS.writeFile saving.path.text saving.text
    | .read _ | .convert _ => pure ()

/-- Prints what a run has to say. -/
def tell : Run.Decision → IO Unit
  | .help => IO.print helpText
  | .misused e => IO.eprintln (programName ++ ": error: " ++ e.message)
  | .planned plan => do
    IO.eprint plan.errors
    IO.print plan.output

end DocSignature.Main

open DocSignature in
/-- Runs the program. -/
def main (arguments : List String) : IO UInt32 := do
  let outcome := Run.perform (← Main.look arguments) arguments
  Main.carryOut outcome.disk.acts
  match outcome.ending with
  | .ok decision =>
    Main.tell decision
    return decision.exitCode.toUInt32
  | .error failure =>
    IO.eprintln failure.message
    return 1
