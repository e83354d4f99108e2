import DocSignature.Loc
import DocSignature.Source.Region
import DocSignature.Text.Line

/-!
# Layout of a source

Lines and columns of offsets, and the doc comments of a source with their texts and places.
-/

namespace DocSignature.Source

/-- The place of an offset in a text whose lines start at `starts`. -/
def locateIn (starts : List Nat) (offset : Nat) : Loc :=
  let upTo := starts.takeWhile (· ≤ offset)
  ⟨upTo.length, offset - upTo.getLastD 0 + 1⟩

/-- The place of an offset, which may lie past the end of the text. -/
def locate (cs : List Char) (offset : Nat) : Loc :=
  locateIn (Text.lineStarts cs) offset

/-- The line and column of an offset that may also lie before the text. There the line is zero, and
the columns go on from the start of the last line. -/
def lineColumn (cs : List Char) (offset : Int) : Int × Int :=
  if 0 ≤ offset then
    let loc := locate cs offset.toNat
    (loc.line, loc.column)
  else (0, offset - (Text.lineStarts cs).getLastD 0 + 1)

/-- The characters from offset `start` to before `stop`. -/
def slice (cs : List Char) (start stop : Nat) : List Char :=
  (cs.drop start).take (stop - start)

/-- A doc comment: its place, its offsets and its text, marks included. -/
structure DocBlock where
  loc : Loc
  start : Nat
  stop : Nat
  text : List Char

/-- The doc comments of a source, in order. -/
def docBlocks (cs : List Char) : List DocBlock :=
  ((regions cs).filter (·.value = .docComment)).map fun r =>
    ⟨locate cs r.start, r.start, r.stop, slice cs r.start r.stop⟩

end DocSignature.Source
