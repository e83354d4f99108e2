import DocSignature.Text.Cut
import DocSignature.Text.Integer
import DocSignature.Text.Quoted

/-!
# Words of the command line

Every word of a command line is an operand, the separator or an option. A long option may be
shortened as long as it stays unambiguous. A text may be attached to an option with an equals sign,
and to a short one also directly.
-/

namespace DocSignature.CommandLine

/-- An option of the command line. -/
inductive Flag where
  | help
  | language
  | outputDir
  | json
  | config
  | workers
  | batchSize
  | verbose
  | quiet
  deriving DecidableEq

namespace Flag

def all : List Flag :=
  [.help, .language, .outputDir, .json, .config, .workers, .batchSize, .verbose, .quiet]

/-- The spellings of an option, the short one first. -/
def spellings : Flag → List String
  | .help => ["-h", "--help"]
  | .language => ["-l", "--language"]
  | .outputDir => ["-o", "--output-dir"]
  | .json => ["--json"]
  | .config => ["--config"]
  | .workers => ["-j", "--workers"]
  | .batchSize => ["--batch-size"]
  | .verbose => ["-v", "--verbose"]
  | .quiet => ["-q", "--quiet"]

/-- An option in messages. -/
def title (flag : Flag) : String :=
  "/".intercalate flag.spellings

/-- Holds of an option that has a value. -/
def takesValue : Flag → Bool
  | .help | .json | .verbose | .quiet => false
  | _ => true

/-- Every spelling with its option. -/
def table : List (String × Flag) :=
  all.flatMap fun flag => flag.spellings.map fun s => (s, flag)

/-- The option with a given spelling. -/
def ofSpelling? (spelling : List Char) : Option Flag :=
  (table.find? fun entry => entry.1.toList = spelling).map (·.2)

/-- The option whose short spelling has a given letter. -/
def ofLetter? (c : Char) : Option Flag :=
  ofSpelling? ['-', c]

/-- The options of which a long spelling starts with a text. -/
def completions (start : List Char) : List (String × Flag) :=
  table.filter fun entry => start.isPrefixOf entry.1.toList

end Flag

/-- A word of the command line. -/
inductive Word where
  | operand (text : String)
  | separator
  /-- An option, given by its letter or not, with the text that is part of the same word. -/
  | option (flag : Flag) (isShort : Bool) (attached : Option (List Char))
  | unknown (text : String)

/-- A shortened option that fits several. -/
structure Ambiguity where
  text : String
  spellings : List String

/-- A text up to the first equals sign, and what is attached there. -/
def cutAtEquals (cs : List Char) : List Char × Option (List Char) :=
  (cs.takeWhile (· ≠ '='),
    match cs.dropWhile (· ≠ '=') with
    | [] => none
    | _ :: rest => some rest)

/-- Holds of a run of at least one decimal digit. -/
def isNumeral (cs : List Char) : Bool :=
  !cs.isEmpty && cs.all fun c => (Text.digitValue? c).isSome

/-- Holds of digits, perhaps with a point before the last run of them; one line feed may follow. -/
def isUnsigned (cs : List Char) : Bool :=
  let body := if cs.getLast? = some '\n' then cs.dropLast else cs
  isNumeral body ||
    (match body.dropWhile (fun c => (Text.digitValue? c).isSome) with
      | '.' :: rest => isNumeral rest
      | _ => false)

/-- A word that starts with a hyphen and is no option: a negative number and a word with a space in
it are operands. -/
def strayWord (text : String) : Word :=
  if isUnsigned (text.toList.drop 1) || text.toList.contains ' ' then .operand text
  else .unknown text

/-- A word that starts with two hyphens: an option up to the equals sign, perhaps shortened. -/
def longWord (text : String) : Except Ambiguity Word :=
  let (start, attached) := cutAtEquals text.toList
  match Flag.completions start with
  | [] => .ok (strayWord text)
  | [(_, flag)] => .ok (.option flag false attached)
  | several => .error ⟨text, several.map (·.1)⟩

/-- A word that starts with one hyphen: an option by its letter, with what follows it. -/
def shortWord (text : String) (letter : Char) (rest : List Char) : Word :=
  match Flag.ofLetter? letter with
  | some flag => .option flag true (some rest)
  | none => strayWord text

/-- A word before the separator. An option with its full spelling needs no completion. -/
def Word.ofText (text : String) : Except Ambiguity Word :=
  match text.toList with
  | '-' :: second :: rest =>
    let (start, attached) := cutAtEquals text.toList
    match Flag.ofSpelling? start with
    | some flag => .ok (.option flag (second ≠ '-') attached)
    | none => if second = '-' then longWord text else .ok (shortWord text second rest)
  | _ => .ok (.operand text)

/-- The words of a command line. Everything behind the separator is an operand. -/
def words : List String → Except Ambiguity (List Word)
  | [] => .ok []
  | text :: rest =>
    if text = "--" then .ok (.separator :: rest.map .operand)
    else match Word.ofText text with
      | .error e => .error e
      | .ok w => (words rest).map (w :: ·)

end DocSignature.CommandLine
