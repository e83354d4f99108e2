import DocSignature.Batch
import DocSignature.Files.FileTree
import DocSignature.Json.Reader
import DocSignature.Text.Integer

/-!
# Settings

Settings come from a file in a versioned format. Every key but the two that name the format may be
left out or null. A language may be spelled in small or capital letters, and of several spellings of
one language the last one counts.
-/

namespace DocSignature

/-- The settings of a run. -/
structure Config where
  language : Language := .python
  maxWorkers : Option Int := none
  batchSize : Int := Batch.defaultSize
  threshold : Log.Threshold := .quiet
  typeMaps : List (Language × TypeMap) := []

namespace Config

/-- The format that a settings file has to name. -/
def format : String := "jsdocx-config"

/-- The variable that overrides the number of workers. -/
def workerVariable : String := "JSDOCX_MAX_WORKER_COUNT"

/-- Why settings are refused. -/
inductive Problem where
  | notAnObject
  | unsupported
  | language (e : Language.Unknown)
  | threshold
  | typeMaps
  | typeMapLanguage (e : Language.Unknown)
  | typeMap (key : String)
  | typeMapEntry (key name : String)
  | notPositive (key : String)
  | unreadable (path : PathName) (problem : FileProblem)
  | malformed (path : PathName) (error : Json.ReadError)
  | workerText (text : String)
  | workerCount (count : Int)

/-- Why no settings were read: they are refused, or something else went wrong. -/
inductive Failure where
  | refused (problem : Problem)
  /-- The threshold is a list, or else an object, which cannot be looked up. -/
  | compoundThreshold (isList : Bool)
  | undecodable (error : Text.DecodeError)
  | tooManyDigits (count : Nat)
  | nullByte

def Problem.message : Problem → String
  | .notAnObject => "config must be a JSON object"
  | .unsupported => "unsupported config format/version"
  | .language e => e.message
  | .threshold => "config 'log_level' must be one of: " ++ Log.Threshold.choices
  | .typeMaps => "config 'type_map' must be a JSON object"
  | .typeMapLanguage e => "config 'type_map': " ++ e.message
  | .typeMap key => "config 'type_map." ++ key ++ "' must be a JSON object"
  | .typeMapEntry key name =>
    "config 'type_map." ++ key ++ "." ++ name ++ "' must be a string or null"
  | .notPositive key => "config '" ++ key ++ "' must be a positive integer"
  | .unreadable path problem => "cannot read config '" ++ path.text ++ "': " ++ problem.text
  | .malformed path error =>
    "config '" ++ path.text ++ "' is not valid JSON: " ++ error.problem.message ++ " (line " ++
      toString error.line ++ ")"
  | .workerText text => workerVariable ++ " must be an integer, got '" ++ text ++ "'"
  | .workerCount count => workerVariable ++ " must be at least 1, got " ++ toString count

def Failure.message : Failure → String
  | .refused problem => problem.message
  | .compoundThreshold isList => "unhashable type: '" ++ (if isList then "list" else "dict") ++ "'"
  | .undecodable error => error.message
  | .tooManyDigits count => (Json.Problem.tooManyDigits count).message
  | .nullByte => nullByteMessage

/-! ## Single settings -/

/-- Holds of a value that equals zero, false among them. -/
def isVersionZero : Json → Bool
  | .int n => n = 0
  | .real x => x.isZero
  | .bool b => !b
  | _ => false

/-- Holds of an object that names the format and its version. -/
def isSupported (json : Json) : Bool :=
  (match json.get? "format" with
    | some (.str s) => s = format
    | _ => false) &&
  (match json.get? "version" with
    | some v => isVersionZero v
    | none => false)

/-- The language of the settings. -/
def languageOf (json : Json) : Except Failure Language :=
  match json.get? "language" with
  | none | some .null => .ok .python
  | some value =>
    (Language.ofText (String.ofList value.display)).mapError fun e => .refused (.language e)

/-- The threshold of the log; anything empty is as good as none. -/
def thresholdOf (json : Json) : Except Failure Log.Threshold :=
  match json.get? "log_level" with
  | none => .ok .quiet
  | some value =>
    if value.isFalsy then .ok .quiet
    else match value with
      | .str s =>
        match Log.Threshold.ofLabel? s with
        | some t => .ok t
        | none => .error (.refused .threshold)
      | .arr _ => .error (.compoundThreshold true)
      | .obj _ => .error (.compoundThreshold false)
      | _ => .error (.refused .threshold)

/-- The entries of one type map. -/
def entriesOf (language : String) : List (String × Json) → Except Problem TypeMap
  | [] => .ok []
  | (name, value) :: rest =>
    match value with
    | .null => (entriesOf language rest).map ((name, none) :: ·)
    | .str s => (entriesOf language rest).map ((name, some s) :: ·)
    | _ => .error (.typeMapEntry language name)

/-- The type maps with that of one language replaced. -/
def setTypeMap (language : Language) (map : TypeMap) (maps : List (Language × TypeMap)) :
    List (Language × TypeMap) :=
  maps.filter (fun m => m.1 ≠ language) ++ [(language, map)]

/-- The type maps of the settings, on top of those that were read before. -/
def readTypeMaps (maps : List (Language × TypeMap)) :
    List (String × Json) → Except Problem (List (Language × TypeMap))
  | [] => .ok maps
  | (name, value) :: rest =>
    match Language.ofText name with
    | .error e => .error (.typeMapLanguage e)
    | .ok language =>
      match value with
      | .obj fields =>
        match entriesOf name fields with
        | .error e => .error e
        | .ok map => readTypeMaps (setTypeMap language map maps) rest
      | _ => .error (.typeMap name)

/-- The type maps of the settings; anything empty is as good as none. -/
def typeMapsOf (json : Json) : Except Problem (List (Language × TypeMap)) :=
  match json.get? "type_map" with
  | none => .ok []
  | some value =>
    if value.isFalsy then .ok []
    else match value with
      | .obj fields => readTypeMaps [] fields
      | _ => .error .typeMaps

/-- A number that has to be at least one when it is given. -/
def positiveOf (key : String) (json : Json) : Except Problem (Option Int) :=
  match json.get? key with
  | none | some .null => .ok none
  | some (.int n) => if n < 1 then .error (.notPositive key) else .ok (some n)
  | some _ => .error (.notPositive key)

/-! ## All settings -/

/-- The settings of a value that names the format. The first one that is refused decides. -/
def readKeys (json : Json) : Except Failure Config := do
  let language ← languageOf json
  let threshold ← thresholdOf json
  let typeMaps ← (typeMapsOf json).mapError Failure.refused
  let maxWorkers ← (positiveOf "max_workers" json).mapError Failure.refused
  let batchSize ← (positiveOf "batch_size" json).mapError Failure.refused
  return {
    language, maxWorkers, threshold, typeMaps
    batchSize := batchSize.getD Batch.defaultSize }

/-- The settings in a value, which has to be an object that names the format. -/
def ofJson (json : Json) : Except Failure Config := do
  match json with
  | .obj _ => pure ()
  | _ => throw (.refused .notAnObject)
  if !isSupported json then throw (.refused .unsupported)
  readKeys json

/-- The settings in a file. -/
def load (tree : FileTree) (directory : List String) (path : PathName) : Except Failure Config :=
  match tree.text directory path with
  | .error .nullByte => .error .nullByte
  | .error (.unreadable problem) => .error (.refused (.unreadable path problem))
  | .error (.undecodable error) => .error (.undecodable error)
  | .ok cs =>
    match Json.read cs with
    | .ok json => ofJson json
    | .error error =>
      match error.problem with
      | .tooManyDigits count => .error (.tooManyDigits count)
      | _ => .error (.refused (.malformed path error))

/-- The type map for a language. -/
def typeMapFor (config : Config) (language : Language) : TypeMap :=
  match config.typeMaps.find? fun m => m.1 = language with
  | some m => m.2
  | none => []

/-! ## The number of workers -/

/-- What the surroundings say about the number of workers. -/
structure Surroundings where
  /-- The value of the variable that overrides the number of workers. -/
  override : Option String := none
  /-- The number of processors, when it is known. -/
  processors : Option Int := none

/-- Half the processors, rounded up: at least one and at most sixteen. -/
def Surroundings.halfProcessors (s : Surroundings) : Int :=
  let n := s.processors.getD 1
  min 16 (max 1 (((if n = 0 then 1 else n) + 1) / 2))

/-- The number of workers when the settings give none. An empty variable counts as not set. -/
def Surroundings.workers (s : Surroundings) : Except Problem Int :=
  match s.override.filter (· ≠ "") with
  | none => .ok s.halfProcessors
  | some text =>
    match Text.readInteger? text.toList with
    | none => .error (.workerText text)
    | some n => if n < 1 then .error (.workerCount n) else .ok n

/-- The number of workers of a run. -/
def workers (config : Config) (s : Surroundings) : Except Problem Int :=
  match config.maxWorkers with
  | some n => .ok n
  | none => s.workers

end Config

end DocSignature
