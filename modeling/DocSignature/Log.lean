/-!
# The log

Entries are logged through loggers, whose names are parted by dots. What the program's own loggers
let through goes to the handlers of the topmost of them and, unless that one keeps its entries to
itself, to those of the root as well, which belongs to the surroundings. Setting up the log puts one
new handler in the place of the one before, whose lines show the level of an entry and a label, and
sets the threshold. A set-up with an unknown threshold is refused.
-/

namespace DocSignature

/-- The name under which the program speaks of itself. -/
def programName : String := "jsdocx"

namespace Log

/-- How much an entry matters: any number, of which a few have a name. -/
structure Level where
  rank : Int
  deriving DecidableEq

namespace Level

instance : LE Level where
  le a b := a.rank ≤ b.rank

instance (a b : Level) : Decidable (a ≤ b) :=
  inferInstanceAs (Decidable (a.rank ≤ b.rank))

def debug : Level := ⟨10⟩
def info : Level := ⟨20⟩
def warning : Level := ⟨30⟩
def error : Level := ⟨40⟩
def critical : Level := ⟨50⟩

/-- The levels that have a name. -/
def named : List (Level × String) :=
  [(⟨0⟩, "NOTSET"), (debug, "DEBUG"), (info, "INFO"), (warning, "WARNING"), (error, "ERROR"),
    (critical, "CRITICAL")]

def label (level : Level) : String :=
  match named.lookup level with
  | some name => name
  | none => "Level " ++ toString level.rank

end Level

/-- From which level on entries are written. -/
inductive Threshold where
  | quiet
  | info
  | verbose
  deriving DecidableEq

namespace Threshold

def all : List Threshold := [.quiet, .info, .verbose]

def label : Threshold → String
  | .quiet => "quiet"
  | .info => "info"
  | .verbose => "verbose"

/-- The lowest level that is written. -/
def least : Threshold → Level
  | .quiet => .warning
  | .info => .info
  | .verbose => .debug

/-- The threshold with a given label. -/
def ofLabel? (label : String) : Option Threshold :=
  all.find? fun t => t.label = label

/-- The labels of all thresholds. -/
def choices : String :=
  ", ".intercalate (all.map label)

end Threshold

/-- Something to be logged, and the name of the logger that logs it. -/
structure Entry where
  level : Level
  message : String
  logger : String := programName

/-! ## Lines -/

/-- What a pattern may ask for, and what an entry has for it. Other marks are left out: one with a
width, a flag or another conversion, and one for something else that an entry could have, such as
the time. They are taken for errors of the pattern. -/
def Entry.fields (e : Entry) : List (List Char × List Char) :=
  [("%%".toList, ['%']), ("%(levelname)s".toList, e.level.label.toList),
    ("%(levelno)s".toList, (toString e.level.rank).toList),
    ("%(levelno)d".toList, (toString e.level.rank).toList),
    ("%(name)s".toList, e.logger.toList), ("%(message)s".toList, e.message.toList)]

/-- A pattern whose first `skip` characters have been dealt with, with fields put in place of their
marks. There is none when a percent sign does not begin a mark. -/
def fillFrom (fields : List (List Char × List Char)) : (skip : Nat) → List Char → Option (List Char)
  | _, [] => some []
  | skip + 1, _ :: cs => fillFrom fields skip cs
  | 0, c :: cs =>
    if c = '%' then
      match fields.find? fun (mark, _) => mark.isPrefixOf (c :: cs) with
      | some (mark, text) => (fillFrom fields (mark.length - 1) cs).map (text ++ ·)
      | none => none
    else (fillFrom fields 0 cs).map (c :: ·)

/-- A pattern as an entry fills it. -/
def Entry.fill (e : Entry) (pattern : String) : Option String :=
  (fillFrom e.fields 0 pattern.toList).map String.ofList

/-- A label as it stands in a line; an empty one is not shown. -/
def bracketed (label : String) : String :=
  if label = "" then "" else " [" ++ label ++ "]"

/-- The pattern of the lines of a log with a label. The label is part of it, marks and all. -/
def linePattern (label : String) : String :=
  "[" ++ programName ++ "] [%(levelname)s]" ++ bracketed label ++ " %(message)s"

/-! ## Loggers -/

/-- What is around a log: the root of all loggers, with a level and with handlers of which nothing
is known but what they write, and what is said about an entry that cannot be shown. -/
structure Root where
  level : Level := .warning
  handlers : List (Entry → String) := []
  trace : Entry → String := fun _ => ""

/-- The first line of a report of an entry that cannot be shown. -/
def reportTitle : String := "--- Logging error ---\n"

/-- What is written for an entry that cannot be shown. -/
def Root.report (root : Root) (e : Entry) : String :=
  reportTitle ++ root.trace e

/-- Something that writes entries. Handlers are told apart by their number. -/
structure Handler where
  number : Nat
  pattern : String
  deriving DecidableEq

/-- What a handler writes for an entry: its line, or a report if it cannot be shown. -/
def Handler.write (root : Root) (h : Handler) (e : Entry) : String :=
  match e.fill h.pattern with
  | some text => text ++ "\n"
  | none => root.report e

/-- The topmost of the program's loggers. Without a level of its own it has that of the root. -/
structure Logger where
  level : Option Level := none
  handlers : List Handler := []
  /-- Whether the handlers of the root get its entries, too. -/
  propagates : Bool := true

namespace Logger

def add (logger : Logger) (h : Handler) : Logger :=
  if h ∈ logger.handlers then logger else { logger with handlers := logger.handlers ++ [h] }

def remove (logger : Logger) (h : Handler) : Logger :=
  { logger with handlers := logger.handlers.erase h }

end Logger

/-- Holds of the names of the program's loggers: its own, and what goes on behind it with a dot.
Dots in a row part a name at the last of them and from there at every second one, so an even number
of them does not lead to the program's name. That a logger may be there already whose name is the
program's with a dot behind it, and so stands between others and the program's own, is left out. -/
def isOwn (logger : String) : Bool :=
  logger = programName ||
    match (programName.toList ++ ['.']).isPrefixOf? logger.toList with
    | some rest => (rest.takeWhile (· = '.')).length % 2 = 0
    | none => false

/-- What is written for an entry that no handler gets. -/
def bareLine (e : Entry) : String :=
  if Level.warning ≤ e.level then e.message ++ "\n" else ""

/-- What handlers write for an entry, when it is let through. A level of zero or below never is. -/
def deliver (least : Level) (handlers : List (Entry → String)) (e : Entry) : String :=
  if 0 < e.level.rank ∧ least ≤ e.level then
    if handlers.isEmpty then bareLine e else String.join (handlers.map (· e))
  else ""

/-! ## Setting up -/

/-- A label that names no threshold. -/
structure UnknownThreshold where
  label : String

def UnknownThreshold.message (e : UnknownThreshold) : String :=
  "unknown log level '" ++ e.label ++ "' (expected one of: " ++ Threshold.choices ++ ")"

end Log

/-- A log, with what it was set up with. -/
structure Log where
  root : Log.Root := {}
  logger : Log.Logger := {}
  /-- The handler of the latest set-up. -/
  handler : Option Log.Handler := none
  /-- The threshold of the latest set-up; a log that was never set up counts as quiet. -/
  current : Log.Threshold := .quiet
  /-- How many handlers have been made. -/
  made : Nat := 0

namespace Log

/-- What the handlers write that an entry of the program's loggers gets to. -/
def writers (log : Log) : List (Entry → String) :=
  log.logger.handlers.map (Handler.write log.root) ++
    if log.logger.propagates then log.root.handlers else []

/-- What is written for an entry. -/
def write (log : Log) (e : Entry) : String :=
  if isOwn e.logger then deliver (log.logger.level.getD log.root.level) log.writers e
  else deliver log.root.level log.root.handlers e

/-- What is written for an entry of the program itself. -/
def line (log : Log) (level : Level) (message : String) : String :=
  log.write { level, message }

/-- The log without the handler of the latest set-up. -/
def cleared (log : Log) : Log :=
  match log.handler with
  | some h => { log with logger := log.logger.remove h }
  | none => log

/-- The log set up with a threshold and a label. -/
def install (log : Log) (threshold : Threshold) (label : String) : Log :=
  let log := log.cleared
  let new : Handler := ⟨log.made, linePattern label⟩
  let log := { log with handler := some new, made := log.made + 1 }
  let log := { log with logger := log.logger.add new }
  let log := { log with logger.level := some threshold.least }
  let log := { log with logger.propagates := false }
  { log with current := threshold }

/-- The log with the same threshold and a label. -/
def labelled (log : Log) (label : String) : Log :=
  log.install log.current label

/-- Something done to a log that may be refused. What it had changed up to then stays changed. -/
abbrev Action := ExceptT UnknownThreshold (StateM Log)

/-- Sets up a log with a threshold given by its label. -/
def configure (threshold : String) (label : Option String) : Action Unit := do
  let some t := Threshold.ofLabel? threshold | throw ⟨threshold⟩
  modify (·.install t (label.getD ""))

/-- A step of those who use a log. -/
inductive Step where
  | configure (threshold : String) (label : Option String)
  | write (e : Entry)

/-- One step: the log after it, and what was written or why it was refused. -/
def step (log : Log) : Step → Log × Except UnknownThreshold String
  | .configure threshold label =>
    let (outcome, next) := (configure threshold label).run.run log
    (next, outcome.map fun _ => "")
  | .write e => (log, .ok (log.write e))

/-- The log after some steps. -/
def after (log : Log) (steps : List Step) : Log :=
  steps.foldl (fun log s => (log.step s).1) log

end Log

end DocSignature
