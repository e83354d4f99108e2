/-!
# Searching a text

All places where a recogniser succeeds, from left to right: after a success the search goes on
behind what was recognised, after a failure one character further on.
-/

namespace DocSignature.Text

/-- A recognised stretch of a text, from offset `start` to before `stop`. -/
structure Hit (α : Type) where
  start : Nat
  stop : Nat
  value : α

/-- A recogniser sees the character before a place, if there is one, and the text from there on; it
answers with a value and the number of characters recognised. -/
abbrev Recogniser (α : Type) := Option Char → List Char → Option (α × Nat)

/-- The hits in a text that starts at offset `pos` after the character `before`, the first `skip`
characters being part of an earlier hit. -/
def hitsFrom (find : Recogniser α) (before : Option Char) (pos : Nat) :
    (skip : Nat) → List Char → List (Hit α)
  | _, [] => []
  | skip + 1, c :: cs => hitsFrom find (some c) (pos + 1) skip cs
  | 0, c :: cs =>
    match find before (c :: cs) with
    | some (value, size) =>
      ⟨pos, pos + size, value⟩ :: hitsFrom find (some c) (pos + 1) (size - 1) cs
    | none => hitsFrom find (some c) (pos + 1) 0 cs

/-- The hits of a recogniser in a text, from left to right and without overlap. -/
def hits (find : Recogniser α) (cs : List Char) : List (Hit α) :=
  hitsFrom find none 0 0 cs

end DocSignature.Text
