import DocSignature.Proofs.Blank
import DocSignature.Proofs.CharClass
import DocSignature.Source.Layout

/-!
# Patched texts

A source and the result of replacing some stretches of it, as one list of cells: characters that
stay, and swaps of an old stretch for a new one. A place between two cells is a place in both texts.
-/

namespace DocSignature

/-- A character that stays, or a stretch and what is written in its place. -/
inductive Cell where
  | kept (c : Char)
  | swap (old new : List Char)

/-- The text before the swaps, and the one after them. -/
inductive Side where
  | old
  | new

/-- The text of a cell. -/
def Cell.text : Side → Cell → List Char
  | _, .kept c => [c]
  | .old, .swap old _ => old
  | .new, .swap _ new => new

namespace Patch

/-- The text of some cells. -/
def text (side : Side) (p : List Cell) : List Char :=
  p.flatMap (Cell.text side)

section Text
variable (side : Side)

@[simp]
theorem text_nil : text side [] = [] := rfl

@[simp]
theorem text_cons (cell : Cell) (p : List Cell) :
    text side (cell :: p) = cell.text side ++ text side p := rfl

@[simp]
theorem text_append (p q : List Cell) : text side (p ++ q) = text side p ++ text side q := by
  simp [text]

@[simp]
theorem text_kept (cs : List Char) : text side (cs.map .kept) = cs := by
  induction cs with
  | nil => rfl
  | cons c cs ih => simp [Cell.text, ih]

end Text

/-! ## Sound patches -/

/-- Holds of a character that neither opens nor closes a comment or a literal, nor ends a line. -/
def isQuiet (c : Char) : Bool :=
  !(Source.isQuote c || c == '\\' || c == '/' || c == '\n')

/-- A text that starts like a word and is quiet. -/
structure Quiet (cs : List Char) : Prop where
  start : ∃ c rest, cs = c :: rest ∧ Text.isNameStart c = true
  quiet : ∀ c ∈ cs, isQuiet c = true

/-- A patch that swaps quiet texts, each with blanks and a brace behind it. -/
structure Sound (p : List Cell) : Prop where
  quiet : ∀ o n, .swap o n ∈ p → Quiet o ∧ Quiet n
  brace : ∀ before o n after, p = before ++ .swap o n :: after →
    ∃ (blanks : List Char) (more : List Cell), after = blanks.map .kept ++ .kept '{' :: more ∧
      ∀ c ∈ blanks, Text.isBlank c = true

theorem Sound.suffix {p q : List Cell} (h : Sound (p ++ q)) : Sound q where
  quiet o n hmem := h.quiet o n (List.mem_append_right p hmem)
  brace before o n after heq := h.brace (p ++ before) o n after (by rw [heq, List.append_assoc])

theorem Sound.tail {cell : Cell} {p : List Cell} (h : Sound (cell :: p)) : Sound p :=
  Sound.suffix (p := [cell]) h

/-- A swap is followed by a character that stays, a blank or a brace. -/
theorem Sound.kept_behind {o n : List Char} {p : List Cell} (h : Sound (.swap o n :: p)) :
    ∃ c rest, p = .kept c :: rest ∧ (c = '{' ∨ Text.isBlank c = true) := by
  obtain ⟨blanks, more, rfl, hb⟩ := h.brace [] o n p rfl
  cases blanks with
  | nil => exact ⟨'{', more, rfl, .inl rfl⟩
  | cons c cs => exact ⟨c, _, rfl, .inr (hb c (by simp))⟩

theorem Sound.text_ne_nil {p : List Cell} (h : Sound p) (side : Side) {cell : Cell}
    (hc : cell ∈ p) : cell.text side ≠ [] := by
  cases cell with
  | kept c => simp [Cell.text]
  | swap o n =>
    obtain ⟨⟨⟨c, rest, ho, -⟩, -⟩, ⟨d, rest', hn, -⟩, -⟩ := h.quiet o n hc
    cases side <;> simp [Cell.text, ho, hn]

/-! ## Places -/

/-- Every offset of a text lies in a cell. -/
theorem cell_at (side : Side) (p : List Cell) :
    ∀ n, n < (text side p).length → ∃ before cell after i, p = before ++ cell :: after ∧
      i < (cell.text side).length ∧ n = (text side before).length + i := by
  induction p with
  | nil => intro n hn; simp at hn
  | cons cell p ih =>
    intro n hn
    by_cases hlt : n < (cell.text side).length
    · exact ⟨[], cell, p, n, rfl, hlt, by simp⟩
    · simp only [text_cons, List.length_append] at hn
      obtain ⟨before, cell', after, i, hp, hi, heq⟩ := ih (n - (cell.text side).length) (by omega)
      refine ⟨cell :: before, cell', after, i, by rw [hp, List.cons_append], hi, ?_⟩
      simp only [text_cons, List.length_append]
      omega

/-- Cells whose text has no length are no cells. -/
theorem Sound.eq_nil_of_length {p q : List Cell} (h : Sound p) (side : Side)
    (hsub : ∀ cell ∈ q, cell ∈ p) (hlen : (text side q).length = 0) : q = [] := by
  cases q with
  | nil => rfl
  | cons cell q =>
    have hne := h.text_ne_nil side (hsub cell (by simp))
    simp only [text_cons, List.length_append] at hlen
    exact absurd (List.length_eq_zero_iff.1 (by omega)) hne

/-- Of two places the earlier one is the earlier one on either side. -/
theorem Sound.prefix_of_length {p a b x y : List Cell} (h : Sound p) (ha : p = a ++ x)
    (hb : p = b ++ y) {side : Side} (hle : (text side a).length ≤ (text side b).length) :
    ∃ mid, b = a ++ mid := by
  rcases List.append_eq_append_iff.1 (ha.symm.trans hb) with ⟨mid, hmid, -⟩ | ⟨mid, hmid, -⟩
  · exact ⟨mid, hmid⟩
  · have hnil : mid = [] := by
      apply h.eq_nil_of_length side
      · intro cell hc
        rw [ha, hmid]
        simp [hc]
      · rw [hmid, text_append, List.length_append] at hle
        omega
    exact ⟨[], by simp [hmid, hnil]⟩

/-- A cell that starts in front of a place ends there at the latest. -/
theorem Sound.cell_cases {p a b x y : List Cell} (h : Sound p) {cell : Cell}
    (ha : p = a ++ cell :: x) (hb : p = b ++ y) {side : Side}
    (hle : (text side a).length ≤ (text side b).length) :
    (b = a ∧ y = cell :: x) ∨
      (text side a).length + (cell.text side).length ≤ (text side b).length := by
  obtain ⟨mid, rfl⟩ := h.prefix_of_length ha hb hle
  rw [ha, List.append_assoc, List.append_cancel_left_eq] at hb
  cases mid with
  | nil => exact .inl ⟨List.append_nil a, hb.symm⟩
  | cons first mid =>
    obtain rfl : cell = first := (List.cons.inj hb).1
    right
    simp only [text_append, text_cons, List.length_append]
    omega

/-- The first cells of a patch stay, up to a given length or up to a swap. -/
theorem kept_run (side : Side) (p : List Cell) :
    ∀ n, n ≤ (text side p).length →
      (∃ (xs : List Char) (q : List Cell), p = xs.map .kept ++ q ∧ xs.length = n) ∨
      ∃ (xs : List Char) (o w : List Char) (q : List Cell),
        p = xs.map .kept ++ .swap o w :: q ∧ xs.length < n := by
  induction p with
  | nil =>
    intro n hn
    exact .inl ⟨[], [], rfl, (Nat.le_zero.1 hn).symm⟩
  | cons cell p ih =>
    intro n hn
    cases n with
    | zero => exact .inl ⟨[], _, rfl, rfl⟩
    | succ n =>
      cases cell with
      | swap o w => exact .inr ⟨[], o, w, p, rfl, by simp⟩
      | kept c =>
        simp only [text_cons, Cell.text, List.length_append, List.length_singleton] at hn
        rcases ih n (by omega) with ⟨xs, q, rfl, hxs⟩ | ⟨xs, o, w, q, rfl, hxs⟩
        · exact .inl ⟨c :: xs, q, rfl, by simp [hxs]⟩
        · exact .inr ⟨c :: xs, o, w, q, rfl, by simpa using hxs⟩

end Patch

end DocSignature
