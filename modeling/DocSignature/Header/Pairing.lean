import DocSignature.Tag.Basic

/-!
# Parameters and their documentation

Documented parameters are paired with declared ones by name. Those that are left fill the declared
parameters that are left, in order, and the last of them may find no parameter.
-/

namespace DocSignature.Header

/-- A documented parameter: the place of its tag, and the tag. -/
abbrev Doc := Loc × ParamTag

/-- The documented parameters, without those of properties, numbered in order. -/
def numbered (docs : List Doc) : List (Doc × Nat) :=
  (docs.filter fun d => !d.2.isProperty).zipIdx

/-- For each name the first documented parameter of that name. A name that was `seen` before gets
nothing. -/
def byName (docs : List (Doc × Nat)) (seen : List String) : List String → List (Option (Doc × Nat))
  | [] => []
  | name :: rest =>
    (if name ∈ seen then none else docs.find? fun d => d.1.2.name = name) ::
      byName docs (name :: seen) rest

/-- The documented parameters that no declared one got. -/
def leftover (docs : List (Doc × Nat)) (given : List (Option (Doc × Nat))) : List Doc :=
  (docs.filter fun d => !(given.any fun g => g.any fun e => e.2 == d.2)).map (·.1)

/-- Fills the gaps of a list from another one, and gives back what did not fit. -/
def fillGaps : List (Option α) → List α → List (Option α) × List α
  | [], rest => ([], rest)
  | some a :: gaps, rest =>
    let (filled, spare) := fillGaps gaps rest
    (some a :: filled, spare)
  | none :: gaps, b :: rest =>
    let (filled, spare) := fillGaps gaps rest
    (some b :: filled, spare)
  | none :: gaps, [] => (none :: gaps, [])

/-- The documentation of each declared parameter, and the documented parameters without a declared
one. -/
def pair (names : List String) (docs : List Doc) : List (Option Doc) × List Doc :=
  let candidates := numbered docs
  let given := byName candidates [] names
  fillGaps (given.map fun g => g.map (·.1)) (leftover candidates given)

end DocSignature.Header
