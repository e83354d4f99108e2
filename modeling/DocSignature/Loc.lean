/-!
# Places in a text

Lines and columns are counted from one, in characters; only a line feed starts a new line.
-/

namespace DocSignature

/-- A line and a column. -/
structure Loc where
  line : Nat
  column : Nat
  deriving DecidableEq

namespace Loc

/-- The place where every text starts. -/
def first : Loc := ⟨1, 1⟩

/-- The place after a character. -/
def next (loc : Loc) (c : Char) : Loc :=
  if c = '\n' then ⟨loc.line + 1, 1⟩ else ⟨loc.line, loc.column + 1⟩

/-- A place of a fragment as a place of the text in which the fragment starts at `base`: only the
fragment's first line is shifted to the right. -/
def within (base loc : Loc) : Loc :=
  if loc.line ≤ 1 then ⟨base.line, base.column + loc.column - 1⟩
  else ⟨base.line + loc.line - 1, loc.column⟩

/-- The place `n` columns further on. -/
def forward (loc : Loc) (n : Nat) : Loc :=
  ⟨loc.line, loc.column + n⟩

end Loc

end DocSignature
