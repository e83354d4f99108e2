import DocSignature.CommandLine.Word
import DocSignature.Files.PathName
import DocSignature.Language.Basic

/-!
# Invocations

What a command line asks for. Its words are read from left to right. The first run of operands names
the sources; what is left over is refused at the end, when everything else was right.
-/

namespace DocSignature

/-- The value of an option. One that is attached to it and is the separator is dropped: the option
was given then, and has an empty list for its value. -/
inductive Given (α : Type) where
  | value (a : α)
  | dropped

/-- What a command line asks for. -/
structure Invocation where
  sources : List PathName := []
  language : Option (Given Language) := none
  outputDir : Option (Given PathName) := none
  json : Bool := false
  config : Option (Given PathName) := none
  workers : Option (Given Int) := none
  batchSize : Option (Given Int) := none
  verbose : Nat := 0
  quiet : Bool := false

namespace CommandLine

/-- Why a command line is refused. -/
inductive UsageError where
  | ambiguous (e : Ambiguity)
  | valueExpected (flag : Flag)
  | valueIgnored (flag : Flag) (text : String)
  | invalidChoice (flag : Flag) (text : String)
  | invalidInteger (flag : Flag) (text : String)
  | sourceRequired
  | unrecognized (texts : List String)
  | tooFewWorkers
  | batchTooSmall

/-- A text between quotes. -/
def quotedText (s : String) : String :=
  String.ofList (Text.quoted s.toList)

def UsageError.message : UsageError → String
  | .ambiguous e =>
    "ambiguous option: " ++ e.text ++ " could match " ++ ", ".intercalate e.spellings
  | .valueExpected flag => "argument " ++ flag.title ++ ": expected one argument"
  | .valueIgnored flag text =>
    "argument " ++ flag.title ++ ": ignored explicit argument " ++ quotedText text
  | .invalidChoice flag text =>
    "argument " ++ flag.title ++ ": invalid choice: " ++ quotedText text ++ " (choose from " ++
      ", ".intercalate (Language.all.map fun l => quotedText l.label) ++ ")"
  | .invalidInteger flag text =>
    "argument " ++ flag.title ++ ": invalid int value: " ++ quotedText text
  | .sourceRequired => "the following arguments are required: source"
  | .unrecognized texts => "unrecognized arguments: " ++ " ".intercalate texts
  | .tooFewWorkers => "--workers must be at least 1"
  | .batchTooSmall => "--batch-size must be at least 1"

/-- Why reading a command line stops: it is refused, or it asks for help. -/
inductive Stop where
  | help
  | refused (e : UsageError)

/-! ## Options that share a word -/

/-- How a word of options ends. -/
inductive Ending where
  /-- An option with nothing attached. -/
  | plain (flag : Flag)
  /-- An option with its value. -/
  | value (flag : Flag) (text : String)

/-- The options of a word from `flag` on, with the text attached to it. The text is the value of the
option; behind a letter that takes none it goes on with the letters of more options. -/
def chain (isShort : Bool) (flag : Flag) : List Char → Except UsageError (List Flag × Ending)
  | [] => if flag.takesValue then .ok ([], .value flag "") else .error (.valueIgnored flag "")
  | c :: rest =>
    let text := String.ofList (c :: rest)
    if flag.takesValue then .ok ([], .value flag text)
    else match if isShort then Flag.ofLetter? c else none with
      | none => .error (.valueIgnored flag text)
      | some next =>
        if rest.isEmpty then .ok ([flag], .plain next)
        else (chain true next rest).map fun (flags, ending) => (flag :: flags, ending)

/-- The options of a word. -/
def optionsOf (flag : Flag) (isShort : Bool) :
    Option (List Char) → Except UsageError (List Flag × Ending)
  | none => .ok ([], .plain flag)
  | some text => chain isShort flag text

/-! ## Taking options into account -/

/-- The invocation with an option that has no value. -/
def setFlag (inv : Invocation) : Flag → Except Stop Invocation
  | .help => .error .help
  | .json => .ok { inv with json := true }
  | .verbose => .ok { inv with verbose := inv.verbose + 1 }
  | .quiet => .ok { inv with quiet := true }
  | _ => .ok inv

/-- The invocation with several options that have no value. -/
def setFlags (inv : Invocation) : List Flag → Except Stop Invocation
  | [] => .ok inv
  | flag :: rest =>
    match setFlag inv flag with
    | .error e => .error e
    | .ok next => setFlags next rest

/-- The integer that an option was given. -/
def integerOf (flag : Flag) (text : String) : Except Stop Int :=
  match Text.readInteger? text.toList with
  | some n => .ok n
  | none => .error (.refused (.invalidInteger flag text))

/-- The language that an option was given. -/
def languageOf (flag : Flag) (text : String) : Except Stop Language :=
  match Language.all.find? fun l => l.label = text with
  | some l => .ok l
  | none => .error (.refused (.invalidChoice flag text))

/-- The value that a text stands for, unless it is the separator. -/
def given (read : String → Except Stop α) (text : String) : Except Stop (Option (Given α)) :=
  if text = "--" then .ok (some .dropped) else (read text).map fun a => some (.value a)

/-- The invocation with an option and its value. -/
def setValue (inv : Invocation) (flag : Flag) (text : String) : Except Stop Invocation :=
  let path (s : String) : Except Stop PathName := .ok (PathName.ofText s)
  match flag with
  | .language => (given (languageOf flag) text).map fun v => { inv with language := v }
  | .outputDir => (given path text).map fun v => { inv with outputDir := v }
  | .config => (given path text).map fun v => { inv with config := v }
  | .workers => (given (integerOf flag) text).map fun v => { inv with workers := v }
  | .batchSize => (given (integerOf flag) text).map fun v => { inv with batchSize := v }
  | _ => .ok inv

/-- What goes wrong where the value of an option is needed and was dropped. -/
def droppedMessage : Flag → String
  | .language => (Language.Unknown.mk "[]").message
  | .outputDir => "unsupported operand type(s) for /: 'list' and 'PosixPath'"
  | .config => "expected str, bytes or os.PathLike object, not list"
  | _ => "'<' not supported between instances of 'list' and 'int'"

/-! ## All words -/

/-- How far the sources have been read. -/
inductive Progress where
  | before
  | within
  | after
  deriving DecidableEq

/-- What has been read of a command line. -/
structure Reading where
  invocation : Invocation := {}
  progress : Progress := .before
  leftover : List String := []

namespace Reading

/-- An operand is a source, unless the run of sources has ended. -/
def operand (r : Reading) (text : String) : Reading :=
  if r.progress = .after then { r with leftover := r.leftover ++ [text] }
  else
    { r with
      progress := .within
      invocation.sources := r.invocation.sources ++ [PathName.ofText text] }

/-- An option ends the run of sources. -/
def close (r : Reading) : Reading :=
  if r.progress = .within then { r with progress := .after } else r

/-- The separator is dropped where sources follow it or stand before it. -/
def separator (r : Reading) (isLast : Bool) : Reading :=
  if r.progress = .after || (r.progress = .before && isLast) then
    { r with leftover := r.leftover ++ ["--"] }
  else r

/-- What has been read, with options that have no value, and perhaps one that has. -/
def options (r : Reading) (flags : List Flag) (value : Option (Flag × String)) :
    Except Stop Reading :=
  match setFlags r.invocation flags with
  | .error e => .error e
  | .ok inv =>
    match value with
    | none => .ok { r.close with invocation := inv }
    | some (flag, text) => (setValue inv flag text).map ({ r.close with invocation := · })

/-- Reads words from left to right. An option that needs a value takes the operand behind it. -/
def read (r : Reading) : List Word → Except Stop Reading
  | [] => .ok r
  | .operand text :: rest => read (r.operand text) rest
  | .separator :: rest => read (r.separator rest.isEmpty) rest
  | .unknown text :: rest => read { r.close with leftover := r.leftover ++ [text] } rest
  | .option flag isShort attached :: rest =>
    match optionsOf flag isShort attached with
    | .error e => .error (.refused e)
    | .ok (flags, .value last text) =>
      match r.options flags (some (last, text)) with
      | .error e => .error e
      | .ok next => read next rest
    | .ok (flags, .plain last) =>
      if last.takesValue then
        match rest with
        | .operand text :: more =>
          match r.options flags (some (last, text)) with
          | .error e => .error e
          | .ok next => read next more
        | _ => .error (.refused (.valueExpected last))
      else
        match r.options (flags ++ [last]) none with
        | .error e => .error e
        | .ok next => read next rest

end Reading

/-- The invocation that a command line asks for. -/
def parse (texts : List String) : Except Stop Invocation :=
  match words texts with
  | .error e => .error (.refused (.ambiguous e))
  | .ok ws =>
    match Reading.read {} ws with
    | .error e => .error e
    | .ok r =>
      if r.invocation.sources.isEmpty then .error (.refused .sourceRequired)
      else if r.leftover.isEmpty then .ok r.invocation
      else .error (.refused (.unrecognized r.leftover))

end CommandLine

end DocSignature
