import DocSignature.Source.Layout
import DocSignature.Text.Blank
import DocSignature.Text.Word

/-!
# Cutting a doc comment into tags

A comment is read line by line. From its second line on the decoration, a star with the blanks
before it and one blank behind it, is dropped, and so are the blanks around what is left. A line
that starts with `@` and a letter starts a tag, and the lines up to the next such line belong to it.
-/

namespace DocSignature.Tag

/-- A tag before its text is read. -/
structure Raw where
  name : List Char
  loc : Loc
  text : List Char

/-- A line of a comment without its decoration and its outer blanks, and the place where what is
left starts. -/
structure Line where
  loc : Loc
  text : List Char

/-- The line behind its decoration. A star that closes the comment is no decoration. -/
def undecorated (line : List Char) : List Char :=
  match Text.trimLeft line with
  | '*' :: rest =>
    match rest with
    | '/' :: _ => line
    | c :: more => if Text.isBlank c then more else rest
    | [] => rest
  | _ => line

/-- The name of the tag that a line starts. -/
def startedName? : List Char → Option (List Char)
  | '@' :: c :: cs =>
    if Text.isAsciiLetter c then
      some (c :: cs.takeWhile fun d => Text.isWordChar d || d == '-')
    else none
  | _ => none

/-- A line of a comment, given the place of its first character. -/
def lineAt (start : Loc) (line content : List Char) : Line :=
  let body := Text.trimLeft content
  ⟨start.forward (line.length - body.length), Text.trimRight body⟩

/-- The lines after the first one, the next of them being line `n`. -/
def laterLines (n : Nat) : List (List Char) → List Line
  | [] => []
  | line :: rest => lineAt ⟨n, 1⟩ line (undecorated line) :: laterLines (n + 1) rest

/-- The lines of a comment at `loc`, the marks around it left out. -/
def bodyLines (loc : Loc) (text : List Char) : List Line :=
  match Text.lines ((text.drop 3).take (text.length - 5)) with
  | [] => []
  | line :: rest => lineAt (loc.forward 3) line line :: laterLines (loc.line + 1) rest

/-- The tags that some lines make up. -/
def gather : List Line → List Raw
  | [] => []
  | line :: rest =>
    match startedName? line.text with
    | none => gather rest
    | some name =>
      let following := rest.takeWhile fun l => (startedName? l.text).isNone
      let text := Text.unlines (line.text :: following.map (·.text))
      ⟨name, line.loc, Text.trimRight text⟩ :: gather rest

/-- The tags of a comment at `loc`, in order. -/
def rawTags (loc : Loc) (text : List Char) : List Raw :=
  gather (bodyLines loc text)

end DocSignature.Tag
