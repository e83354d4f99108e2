import DocSignature.CommandLine.Invocation
import DocSignature.Config
import DocSignature.Files.OutputLayout
import DocSignature.Report

/-!
# Runs

A run of the program: the command line and the settings are read, then all sources, then all of them
are converted, and only then anything is written. A run that is refused writes nothing.
-/

namespace DocSignature

/-- What a run finds. -/
structure World where
  tree : FileTree := {}
  /-- The current directory, from the root of all files. -/
  current : List String := []
  surroundings : Config.Surroundings := {}
  /-- Where a path leads from the root of all files, with every link followed. The tree shows no
  links. -/
  resolve : PathName → List String := PathName.placeFrom current

namespace Run

/-- A text to be written to a file. -/
structure Saving where
  path : PathName
  text : String

/-- What a run prints, and the exit code it ends with. -/
structure Plan where
  exitCode : Nat
  output : String := ""
  errors : String := ""

/-- How a run ends that does not fail. -/
inductive Decision where
  | help
  | misused (e : CommandLine.UsageError)
  | planned (plan : Plan)

/-- The exit code of a run that does not fail. -/
def Decision.exitCode : Decision → Nat
  | .help => 0
  | .misused _ => 2
  | .planned plan => plan.exitCode

/-- Why a run fails. -/
inductive Failure where
  | config (failure : Config.Failure)
  | undecodable (error : Text.DecodeError)
  | nullByte
  | fault (fault : Header.ParamFault)
  /-- The value of an option is needed and was dropped. -/
  | dropped (flag : CommandLine.Flag)
  | save (problem : SaveProblem)

def Failure.message : Failure → String
  | .config e => e.message
  | .undecodable e => e.message
  | .nullByte => nullByteMessage
  | .fault e => e.message
  | .dropped flag => CommandLine.droppedMessage flag
  | .save e => e.message

/-! ## Steps of a run -/

/-- Something that a run does with the files or with its sources. -/
inductive Act where
  /-- A file is read. -/
  | read (path : PathName)
  /-- All sources are converted. -/
  | convert (sources : List SourceFile)
  /-- A directory is made, and those above it that are missing. -/
  | makeDirectory (path : PathName)
  /-- A text is written to a file. -/
  | write (saving : Saving)

/-- What an act changes. -/
def Act.change (current : List String) : Act → FileTree.Change Unit
  | .read _ | .convert _ => return
  | .makeDirectory path => FileTree.makePath current path
  | .write saving => FileTree.writeText current saving.path saving.text

/-- The files in the course of a run, and what the run did up to now, in order. An act that is
refused is there, too. -/
structure Disk where
  tree : FileTree
  acts : List Act := []

/-- How a run ends before all its results are written. -/
inductive Exit where
  | decided (decision : Decision)
  | failed (failure : Failure)

def Exit.ending : Exit → Except Failure Decision
  | .decided decision => .ok decision
  | .failed failure => .error failure

/-- A part of a run. What it did to the files stays done when it ends the run. -/
abbrev Action := ExceptT Exit (StateM Disk)

/-- How a part of a run ends, and the files after it. -/
def Action.on (a : Action α) (disk : Disk) : Except Exit α × Disk :=
  a.run.run disk

/-- Puts down what is going to be done. -/
def note (act : Act) : Action Unit :=
  modify fun disk => { disk with acts := disk.acts ++ [act] }

/-- Changes the files by an act. One that is refused fails the run, and what it had changed up to
then stays changed. -/
def carryOut (current : List String) (act : Act) : Action Unit := do
  note act
  let (ending, tree) := (act.change current).run.run (← get).tree
  modify fun disk => { disk with tree }
  MonadExcept.ofExcept (ending.mapError fun problem => Exit.failed (.save problem))

/-- The plan of a run that is refused: one message and nothing else. -/
def refusal (json : Bool) (message : String) (file : Option String) : Plan :=
  if json then { exitCode := 2, output := (Report.refusalValue message file).write ++ "\n" }
  else { exitCode := 2, errors := Report.refusalLine programName message file ++ "\n" }

/-- The end of a run that is refused. -/
def refuse (json : Bool) (message : String) (file : Option String) : Exit :=
  .decided (.planned (refusal json message file))

/-! ## Settings -/

/-- The invocation that a command line asks for. -/
def invocationOf (arguments : List String) : Except Exit Invocation :=
  match CommandLine.parse arguments with
  | .ok inv => .ok inv
  | .error .help => .error (.decided .help)
  | .error (.refused e) => .error (.decided (.misused e))

/-- The settings that an invocation names. -/
def settings (current : List String) (inv : Invocation) : Action Config :=
  match inv.config with
  | none => return {}
  | some .dropped => throw (.failed (.dropped .config))
  | some (.value path) => do
    note (.read path)
    match Config.load (← get).tree current path with
    | .ok config => return config
    | .error (.refused problem) => throw (refuse inv.json problem.message (some path.text))
    | .error failure => throw (.failed (.config failure))

/-- The value of an option, if it was given and not dropped. -/
def valueOf (flag : CommandLine.Flag) : Option (Given α) → Except Exit (Option α)
  | none => .ok none
  | some (.value a) => .ok (some a)
  | some .dropped => .error (.failed (.dropped flag))

/-- The count that an option was given, which must be positive. -/
def countOf (flag : CommandLine.Flag) (tooSmall : CommandLine.UsageError)
    (given : Option (Given Int)) : Except Exit (Option Int) :=
  match valueOf flag given with
  | .ok (some n) => if n < 1 then .error (.decided (.misused tooSmall)) else .ok (some n)
  | other => other

/-- The settings with what the command line says otherwise. -/
def adjust (inv : Invocation) (config : Config) : Except Exit Config := do
  let language ← valueOf .language inv.language
  let workers ← countOf .workers .tooFewWorkers inv.workers
  let batchSize ← countOf .batchSize .batchTooSmall inv.batchSize
  return {
    config with
    language := language.getD config.language
    maxWorkers := workers.or config.maxWorkers
    batchSize := batchSize.getD config.batchSize }

/-- The threshold of the log: the command line decides before the settings do. -/
def threshold (inv : Invocation) (config : Config) : Log.Threshold :=
  if inv.quiet then .quiet
  else match inv.verbose with
    | 0 => config.threshold
    | 1 => .info
    | _ => .verbose

/-! ## Sources -/

/-- A source. One that cannot be read ends the run. -/
def readSource (current : List String) (json : Bool) (path : PathName) : Action SourceFile := do
  note (.read path)
  match (← get).tree.text current path with
  | .ok cs => return ⟨path.text, String.ofList cs⟩
  | .error (.unreadable problem) =>
    throw (refuse json ("cannot read source: " ++ problem.text) (some path.text))
  | .error (.undecodable error) => throw (.failed (.undecodable error))
  | .error .nullByte => throw (.failed .nullByte)

/-- The number of workers. -/
def workersOf (surroundings : Config.Surroundings) (inv : Invocation) (config : Config) :
    Except Exit Int :=
  (config.workers surroundings).mapError fun problem => refuse inv.json problem.message none

/-- What a run has to do once everything is read. -/
structure Task where
  invocation : Invocation
  config : Config
  sources : List SourceFile
  workers : Int

namespace Task

def log (task : Task) : Log :=
  ({} : Log).install (threshold task.invocation task.config) ""

def job (task : Task) : Batch.Job :=
  { language := task.config.language
    typeMap := task.config.typeMapFor task.config.language
    workers := task.workers
    batchSize := some task.config.batchSize }

end Task

/-- Reads the command line, the settings and all sources. -/
def prepare (current : List String) (surroundings : Config.Surroundings)
    (arguments : List String) : Action Task := do
  let inv ← MonadExcept.ofExcept (invocationOf arguments)
  let config ← settings current inv
  let config ← MonadExcept.ofExcept (adjust inv config)
  let sources ← inv.sources.mapM (readSource current inv.json)
  let workers ← MonadExcept.ofExcept (workersOf surroundings inv config)
  return ⟨inv, config, sources, workers⟩

/-! ## Results -/

/-- Converts all sources. A fault that no batch takes in ends the run. -/
def convertSources (task : Task) : Action BatchReport := do
  note (.convert task.sources)
  match Batch.convertAll task.log task.job task.sources with
  | .ok report => return report
  | .error fault => throw (.failed (.fault fault))

/-- Where each result is written, when there is an output directory. -/
def targets (resolve : PathName → List String) (task : Task) :
    Except Exit (Option (List PathName)) :=
  match task.invocation.outputDir with
  | none => .ok none
  | some .dropped => .error (.failed (.dropped .outputDir))
  | some (.value out) =>
    .ok (some
      (OutputLayout.targets resolve out task.config.language.extension task.invocation.sources))

/-- What is printed about the results. -/
def printed (json : Bool) (exitCode : Nat) (results : List Conversion) :
    Option (List PathName) → String
  | none =>
    if json then (Report.value exitCode (results.map (Report.entry · none))).write ++ "\n"
    else "".intercalate (results.map (·.text))
  | some paths =>
    if json then
      (Report.value exitCode
        ((results.zip paths).map fun (c, path) => Report.entry c (some path.text))).write ++ "\n"
    else ""

/-- The results of a run and where they go. -/
structure Product where
  task : Task
  report : BatchReport
  /-- A path for each result, when there is an output directory. -/
  paths : Option (List PathName)

namespace Product

/-- What there is to be written. -/
def savings (product : Product) : List Saving :=
  match product.paths with
  | none => []
  | some paths => (product.report.results.zip paths).map fun (c, path) => ⟨path, c.text⟩

/-- What has to be done for that: each file gets its directory before it is written. -/
def acts (product : Product) : List Act :=
  product.savings.flatMap fun s => [.makeDirectory s.path.parent, .write s]

/-- The plan of a run that has written its results. -/
def plan (product : Product) : Plan :=
  let task := product.task
  let report := product.report
  let json := task.invocation.json
  let exitCode := if report.results.all (·.diagnostics.isEmpty) then 0 else 1
  let written := "".intercalate (product.savings.map fun s =>
    task.log.line .info ("wrote " ++ s.path.text))
  let said := if json then "" else "".intercalate (report.results.map Report.lines)
  { exitCode
    output := printed json exitCode report.results product.paths
    errors := report.log ++ written ++ said }

end Product

/-- All that a run does before it writes anything. -/
def produce (current : List String) (resolve : PathName → List String)
    (surroundings : Config.Surroundings) (arguments : List String) : Action Product := do
  let task ← prepare current surroundings arguments
  let report ← convertSources task
  let paths ← MonadExcept.ofExcept (targets resolve task)
  return ⟨task, report, paths⟩

/-! ## Whole runs -/

/-- All that a run does. -/
def course (current : List String) (resolve : PathName → List String)
    (surroundings : Config.Surroundings) (arguments : List String) : Action Plan := do
  let product ← produce current resolve surroundings arguments
  product.acts.forM (carryOut current)
  return product.plan

/-- How a run ended, and the files as it left them. -/
structure Outcome where
  ending : Except Failure Decision
  disk : Disk

/-- A run with a given command line. -/
def perform (w : World) (arguments : List String) : Outcome :=
  match (course w.current w.resolve w.surroundings arguments).on ⟨w.tree, []⟩ with
  | (.ok plan, disk) => ⟨.ok (.planned plan), disk⟩
  | (.error exit, disk) => ⟨exit.ending, disk⟩

/-- A run: what it decides, and the files after it. -/
def run (w : World) (arguments : List String) : Except Failure (Decision × FileTree) :=
  let outcome := perform w arguments
  outcome.ending.map fun decision => (decision, outcome.disk.tree)

end Run

end DocSignature
