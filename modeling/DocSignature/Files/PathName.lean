import DocSignature.Text.Cut

/-!
# Path names

A path name is a list of parts behind a root, which is empty for a relative one. Empty parts and
single dots are dropped when a path is read; double dots are kept, because what they mean depends on
the files.
-/

namespace DocSignature

/-- A path name. -/
structure PathName where
  /-- Empty for a relative path, one slash or exactly two for an absolute one. -/
  root : String := ""
  parts : List String
  deriving DecidableEq

namespace PathName

/-- The root that a text starts with: two slashes are a root of their own, three are one. -/
def rootOf : List Char → String
  | '/' :: '/' :: '/' :: _ => "/"
  | '/' :: '/' :: _ => "//"
  | '/' :: _ => "/"
  | _ => ""

/-- The path that a text writes. -/
def ofText (text : String) : PathName :=
  { root := rootOf text.toList
    parts := ((Text.cut '/' text.toList).map String.ofList).filter fun p => p ≠ "" && p ≠ "." }

/-- The path as a text; the empty relative path is a dot. -/
def text (p : PathName) : String :=
  let body := p.root ++ "/".intercalate p.parts
  if body = "" then "." else body

/-- The path without its last part. -/
def parent (p : PathName) : PathName :=
  { p with parts := p.parts.dropLast }

/-- The path with more parts behind it. -/
def append (p : PathName) (parts : List String) : PathName :=
  { p with parts := p.parts ++ parts }

/-- Holds of a path with a null character in it. -/
def hasNull (p : PathName) : Bool :=
  p.parts.any fun part => part.toList.contains '\x00'

/-- The last part. -/
def name (p : PathName) : String :=
  p.parts.getLast?.getD ""

/-- What stands before the last dot of a name. A dot that opens or closes the name ends no stem. -/
def stemOf (name : List Char) : List Char :=
  match name.reverse.dropWhile (· ≠ '.') with
  | '.' :: front =>
    if front.isEmpty || name.getLast? = some '.' then name else front.reverse
  | _ => name

/-- The name without its last extension. -/
def stem (p : PathName) : String :=
  String.ofList (stemOf p.name.toList)

/-- The parts with every double dot and the part before it taken away. -/
def collapse (done : List String) : List String → List String
  | [] => done
  | p :: rest => if p = ".." then collapse done.dropLast rest else collapse (done ++ [p]) rest

/-- The parts of the path from the root of all files, seen from a directory. They are taken from the
text alone: the path leads there as long as no part of it is a link. -/
def placeFrom (directory : List String) (p : PathName) : List String :=
  if p.root = "" then collapse directory p.parts else collapse [] p.parts

end PathName

end DocSignature
