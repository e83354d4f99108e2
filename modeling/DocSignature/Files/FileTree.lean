import DocSignature.Files.PathName
import DocSignature.Text.Line
import DocSignature.Text.Utf8

/-!
# Files and directories

A tree of files, as far as the program looks at it: what a path leads to, what reading a file gives,
and what making directories and writing files changes. Links, permissions and writes that stop
halfway are left out: a double dot leads to the directory above, all that is there may be read and
written, and a file is written as a whole or not at all.
-/

namespace DocSignature

/-- Why something cannot be done with a path. -/
inductive FileProblem where
  | missing
  | occupied
  | notDirectory
  | isDirectory
  | nameTooLong
  deriving DecidableEq

namespace FileProblem

def text : FileProblem → String
  | .missing => "No such file or directory"
  | .occupied => "File exists"
  | .notDirectory => "Not a directory"
  | .isDirectory => "Is a directory"
  | .nameTooLong => "File name too long"

/-- The number that the system gives a problem. -/
def number : FileProblem → Nat
  | .missing => 2
  | .occupied => 17
  | .notDirectory => 20
  | .isDirectory => 21
  | .nameTooLong => 36

end FileProblem

/-- A problem and the path it arose with. -/
structure FileError where
  problem : FileProblem
  path : PathName

def FileError.message (e : FileError) : String :=
  "[Errno " ++ toString e.problem.number ++ "] " ++ e.problem.text ++ ": " ++
    String.ofList (Text.quoted e.path.text.toList)

/-- Why a file cannot be written. -/
inductive SaveProblem where
  /-- The path has a null character in it, so that the system cannot be asked about it. -/
  | nullByte
  | refused (error : FileError)

/-- What is said about a path with a null character in it. -/
def nullByteMessage : String := "embedded null byte"

def SaveProblem.message : SaveProblem → String
  | .nullByte => nullByteMessage
  | .refused error => error.message

/-- A file with its bytes, or a directory. -/
inductive FileNode where
  | directory
  | file (bytes : List UInt8)
  deriving DecidableEq

/-- Files and directories by their parts from the root, which is always there. -/
structure FileTree where
  nodes : List (List String × FileNode) := []

namespace FileTree

/-- What stands at a place. -/
def node? (tree : FileTree) (place : List String) : Option FileNode :=
  if place.isEmpty then some .directory
  else (tree.nodes.find? fun n => n.1 = place).map (·.2)

/-- The tree with a node at a place. -/
def put (tree : FileTree) (place : List String) (node : FileNode) : FileTree :=
  ⟨(place, node) :: tree.nodes.filter fun n => n.1 ≠ place⟩

/-- The most bytes that one part of a path may have. -/
def maxNameSize : Nat := 255

/-- The most bytes that a whole path may have. -/
def maxPathSize : Nat := 4095

/-- The place that parts lead to from a directory. All but the last part must be there, every part
that another one follows must be a directory, and none may be too long. -/
def walk (tree : FileTree) (directory : List String) :
    List String → Except FileProblem (List String)
  | [] => .ok directory
  | p :: rest =>
    let next := if p = ".." then directory.dropLast else directory ++ [p]
    if maxNameSize < p.utf8ByteSize then .error .nameTooLong
    else if rest.isEmpty then .ok next
    else match tree.node? next with
      | some .directory => walk tree next rest
      | some (.file _) => .error .notDirectory
      | none => .error .missing

/-- The place that a path leads to, seen from a directory. -/
def locate (tree : FileTree) (directory : List String) (path : PathName) :
    Except FileProblem (List String) :=
  if maxPathSize < path.text.utf8ByteSize then .error .nameTooLong
  else tree.walk (if path.root = "" then directory else []) path.parts

/-- The bytes of a file. -/
def bytes (tree : FileTree) (directory : List String) (path : PathName) :
    Except FileProblem (List UInt8) :=
  match tree.locate directory path with
  | .error e => .error e
  | .ok place =>
    match tree.node? place with
    | some (.file bytes) => .ok bytes
    | some .directory => .error .isDirectory
    | none => .error .missing

/-- Why a file has no text. -/
inductive TextProblem where
  | nullByte
  | unreadable (problem : FileProblem)
  | undecodable (error : Text.DecodeError)

/-- The text of a file, with line feeds as its only line ends. -/
def text (tree : FileTree) (directory : List String) (path : PathName) :
    Except TextProblem (List Char) :=
  if path.hasNull then .error .nullByte
  else match tree.bytes directory path with
    | .error e => .error (.unreadable e)
    | .ok bytes =>
      match Text.decodeUtf8 bytes with
      | .error e => .error (.undecodable e)
      | .ok cs => .ok (Text.unifyLineEnds cs)

/-! ## Changes -/

/-- A change of the files, which may be refused. What was changed up to then stays changed. -/
abbrev Change := ExceptT SaveProblem (StateM FileTree)

/-- The place that a path leads to. -/
def placeOf (directory : List String) (path : PathName) : Change (List String) := do
  if path.hasNull then throw .nullByte
  match (← get).locate directory path with
  | .error e => throw (.refused ⟨e, path⟩)
  | .ok place => return place

/-- Makes one directory; one that is there already is left as it is. -/
def makeDirectory (directory : List String) (path : PathName) : Change Unit := do
  let place ← placeOf directory path
  match (← get).node? place with
  | some .directory => return
  | some (.file _) => throw (.refused ⟨.occupied, path⟩)
  | none => modify (·.put place .directory)

/-- Makes a directory and the missing ones above it, of which there are at most `depth`. -/
def makeDirectories (directory : List String) (path : PathName) : (depth : Nat) → Change Unit
  | 0 => makeDirectory directory path
  | depth + 1 =>
    tryCatch (makeDirectory directory path) fun
      | .refused ⟨.missing, _⟩ => do
        makeDirectories directory path.parent depth
        makeDirectory directory path
      | problem => throw problem

/-- Makes a directory and all that are missing above it. -/
def makePath (directory : List String) (path : PathName) : Change Unit :=
  makeDirectories directory path path.parts.length

/-- Writes a text to a file. -/
def writeText (directory : List String) (path : PathName) (text : String) : Change Unit := do
  let place ← placeOf directory path
  match (← get).node? place with
  | some .directory => throw (.refused ⟨.isDirectory, path⟩)
  | _ => modify (·.put place (.file text.toUTF8.toList))

end FileTree

end DocSignature
