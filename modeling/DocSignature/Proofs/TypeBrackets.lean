import DocSignature.Proofs.TypeShape

/-!
# Spelled types inside of a header

A header is found again by its parentheses, braces, colons and equals signs, and its parameters are
parted by commas and blanks. A spelled type has none of the former, and the latter only between two
brackets that belong together, so that it can stand in a header without being taken for a part of
it.
-/

namespace DocSignature.TypeText

/-- The brackets that open in a type, each with the one that closes it. -/
def bracketPairs : List (Char × Char) :=
  [('[', ']'), ('<', '>')]

/-- A text of bracketed texts of this kind and characters that are no brackets. -/
inductive Nested : List Char → Prop
  | nil : Nested []
  | char {c : Char} {cs : List Char} (hc : ∀ pair ∈ bracketPairs, c ≠ pair.1 ∧ c ≠ pair.2)
      (hcs : Nested cs) : Nested (c :: cs)
  | bracket {opening closing : Char} {inner cs : List Char}
      (hpair : (opening, closing) ∈ bracketPairs) (hinner : Nested inner) (hcs : Nested cs) :
      Nested (opening :: (inner ++ closing :: cs))

theorem Nested.append {xs ys : List Char} (hx : Nested xs) (hy : Nested ys) :
    Nested (xs ++ ys) := by
  induction hx with
  | nil => exact hy
  | char hc _ ih => exact .char hc ih
  | bracket hpair hinner _ _ ih =>
    rw [List.cons_append, List.append_assoc, List.cons_append]
    exact .bracket hpair hinner ih

/-- Holds of a character between `before` and `after` that stands between two brackets that belong
together. -/
def Enclosed (before : List Char) (c : Char) (after : List Char) : Prop :=
  ∃ opening closing outside left right beyond, (opening, closing) ∈ bracketPairs ∧
    before = outside ++ opening :: left ∧ after = right ++ closing :: beyond ∧
    Nested (left ++ c :: right)

/-! ## Brackets that are due -/

/-- A character opens a bracket, or closes the one that is due first, or is none. -/
theorem nestStep_brackets {due due' : List Char} {c : Char} (h : nestStep due c = some due') :
    (∃ closing, (c, closing) ∈ bracketPairs ∧ due' = closing :: due) ∨
      (∃ opening, (opening, c) ∈ bracketPairs ∧ due = c :: due') ∨
      ((∀ pair ∈ bracketPairs, c ≠ pair.1 ∧ c ≠ pair.2) ∧ due' = due) := by
  rcases nestStep_cases h with ⟨rfl, rfl⟩ | ⟨rfl, rfl⟩ | ⟨rfl | rfl, rfl⟩ | ⟨rfl | rfl, -, rfl⟩ |
    ⟨hmark, rfl⟩
  · exact .inl ⟨']', by decide, rfl⟩
  · exact .inl ⟨'>', by decide, rfl⟩
  · exact .inr (.inl ⟨'[', by decide, rfl⟩)
  · exact .inr (.inl ⟨'<', by decide, rfl⟩)
  · exact .inr (.inr ⟨by decide, rfl⟩)
  · exact .inr (.inr ⟨by decide, rfl⟩)
  · refine .inr (.inr ⟨fun pair hpair => ?_, rfl⟩)
    simp only [bracketPairs, List.mem_cons, List.not_mem_nil, or_false] at hpair
    rcases hpair with rfl | rfl <;> constructor <;> (rintro rfl; revert hmark; decide)

/-- Holds of what follows where some brackets are due: nested texts, with the brackets that are due
between them in order. -/
def Closes : List Char → List Char → Prop
  | [], cs => Nested cs
  | closing :: due, cs =>
    ∃ inner rest, cs = inner ++ closing :: rest ∧ Nested inner ∧ Closes due rest

/-- Holds of what comes before where some brackets are due: nested texts, with a bracket between
them that opens each of those that are due, the one that is due first opened last. -/
def Opens : List Char → List Char → Prop
  | [], cs => Nested cs
  | closing :: due, cs =>
    ∃ opening outside inner, (opening, closing) ∈ bracketPairs ∧
      cs = outside ++ opening :: inner ∧ Nested inner ∧ Opens due outside

theorem Closes.nested_append {due cs : List Char} (h : Closes due cs) {xs : List Char}
    (hx : Nested xs) : Closes due (xs ++ cs) := by
  cases due with
  | nil => exact hx.append h
  | cons closing due =>
    obtain ⟨inner, rest, rfl, hinner, hrest⟩ := h
    exact ⟨xs ++ inner, rest, by simp, hx.append hinner, hrest⟩

theorem Opens.append_nested {due cs : List Char} (h : Opens due cs) {xs : List Char}
    (hx : Nested xs) : Opens due (cs ++ xs) := by
  cases due with
  | nil => exact Nested.append h hx
  | cons closing due =>
    obtain ⟨opening, outside, inner, hpair, rfl, hinner, houtside⟩ := h
    exact ⟨opening, outside, inner ++ xs, hpair, by simp, hinner.append hx, houtside⟩

theorem nested_bracket {opening closing : Char} {inner : List Char}
    (hpair : (opening, closing) ∈ bracketPairs) (h : Nested inner) :
    Nested (opening :: inner ++ [closing]) :=
  .bracket hpair h .nil

/-- What is due is closed by the end. -/
theorem closes_of_nest (cs : List Char) : ∀ {due}, nest due cs = some [] → Closes due cs := by
  induction cs with
  | nil =>
    intro due h
    cases h
    exact .nil
  | cons c cs ih =>
    intro due h
    obtain ⟨mid, hstep, hrest⟩ := Option.bind_eq_some_iff.1 h
    have hlater := ih hrest
    rcases nestStep_brackets hstep with ⟨closing, hpair, rfl⟩ | ⟨opening, -, rfl⟩ | ⟨hc, rfl⟩
    · obtain ⟨inner, rest, rfl, hinner, hdue⟩ := hlater
      rw [List.append_cons, ← List.cons_append]
      exact hdue.nested_append (nested_bracket hpair hinner)
    · exact ⟨[], cs, rfl, .nil, hlater⟩
    · exact hlater.nested_append (.char hc .nil)

/-- What is due was opened before. -/
theorem opens_of_nest (cs : List Char) : ∀ {due}, nest [] cs = some due → Opens due cs := by
  induction cs using List.reverseRecOn with
  | nil =>
    intro due h
    cases h
    exact .nil
  | append_singleton cs c ih =>
    intro due h
    rw [nest_append] at h
    obtain ⟨mid, hfront, hlast⟩ := Option.bind_eq_some_iff.1 h
    obtain ⟨due, hstep, hnil⟩ := Option.bind_eq_some_iff.1 hlast
    cases hnil
    have hbefore := ih hfront
    rcases nestStep_brackets hstep with ⟨closing, hpair, rfl⟩ | ⟨opening, -, rfl⟩ | ⟨hc, rfl⟩
    · exact ⟨c, cs, [], hpair, rfl, .nil, hbefore⟩
    · obtain ⟨opening, outside, inner, hpair, rfl, hinner, hdue⟩ := hbefore
      rw [List.append_assoc]
      exact hdue.append_nested (nested_bracket hpair hinner)
    · exact hbefore.append_nested (.char hc .nil)

/-- A comma or a blank of a nested text is enclosed. -/
theorem enclosed_of_nest {before after : List Char} {c : Char} (hc : c = ',' ∨ c = ' ')
    (h : nest [] (before ++ c :: after) = some []) : Enclosed before c after := by
  rw [nest_append] at h
  obtain ⟨due, hbefore, hrest⟩ := Option.bind_eq_some_iff.1 h
  obtain ⟨mid, hstep, hafter⟩ := Option.bind_eq_some_iff.1 hrest
  obtain ⟨hdue, rfl⟩ : due ≠ [] ∧ mid = due := by
    rcases hc with rfl | rfl <;> simpa [nestStep, eq_comm] using hstep
  obtain ⟨closing, due, rfl⟩ := List.exists_cons_of_ne_nil hdue
  obtain ⟨opening, outside, left, hpair, rfl, hleft, -⟩ := opens_of_nest before hbefore
  obtain ⟨right, beyond, rfl, hright, -⟩ := closes_of_nest after hafter
  have hplain : ∀ pair ∈ bracketPairs, c ≠ pair.1 ∧ c ≠ pair.2 := by
    rcases hc with rfl | rfl <;> decide
  exact ⟨opening, closing, outside, left, right, beyond, hpair, rfl, rfl,
    hleft.append (.char hplain hright)⟩

/-! ## Types in a header -/

/-- The characters that a header is found by. -/
def headerMarks : List Char :=
  ['(', ')', '{', '}', '\'', '"', '`', '=', ':', '\n']

/-- A text that can stand in a header: no mark of a header is in it, no blank is around it, and what
parts parameters and their words is enclosed in brackets. -/
structure FitsHeader (cs : List Char) : Prop where
  trimmed : Text.Trimmed cs
  unmarked : ∀ c ∈ cs, c ∉ headerMarks
  nested : Nested cs
  enclosed : ∀ before c after, cs = before ++ c :: after → c = ',' ∨ c = ' ' →
    Enclosed before c after

theorem not_mem_headerMarks {c : Char} (h : c ∈ "[]<>, ".toList ∨ isMark c = true) :
    c ∉ headerMarks := by
  intro hmem
  simp only [headerMarks, List.mem_cons, List.not_mem_nil, or_false] at hmem
  rcases hmem with rfl | rfl | rfl | rfl | rfl | rfl | rfl | rfl | rfl | rfl <;>
    (revert h; decide)

theorem Spelled.fitsHeader {cs : List Char} (h : Spelled cs) : FitsHeader cs where
  trimmed := h.trimmed
  unmarked c hc := not_mem_headerMarks (mem_of_nest cs h.2 c hc)
  nested := closes_of_nest cs h.2
  enclosed _ _ _ heq hc := enclosed_of_nest hc (heq ▸ h.2)

/-- The text of a type that was read, with imports that were read, fits into a header. -/
theorem ofExpr_fits_header (language : Language) {base : Loc} {cs : List Char} {e : TypeExpr}
    (he : TypeExpr.read base cs = .ok e) (importFile file : Option String) {tags : List Tag}
    (htags : ∀ tag ∈ tags, tag.WasRead) :
    FitsHeader (ofExpr (ImportTable.ofTags importFile tags).1 language.policy file e).1.toList :=
  (keeps_ofExpr file language.keeps_spelled (ImportTable.named_ofTags importFile htags)
    (TypeExpr.named_of_read he)).fitsHeader

/-- An array of a union, whose members are a builtin, an imported type and one of a module. -/
theorem ofExpr_of_nested_union_fits_header :
    let tags := (Tag.readAll none .first
      "/** @import \x7b Conn as Client \x7d from 'm'\n * @import * as ns from 'n' */".toList).1
    let text := "typing.List[typing.Union[float, Conn, typing.Mapping[typing.Any, typing.Any]]]"
    (∀ tag ∈ tags, tag.WasRead) ∧
      ∃ e, TypeExpr.read .first "(number|Client|ns.Map)[]".toList = .ok e ∧
        (ofExpr (ImportTable.ofTags none tags).1 (Language.policy .python) none e).1 = text ∧
        FitsHeader text.toList := by
  intro tags text
  have hread : ∀ tag ∈ tags, tag.WasRead := fun tag htag => Tag.wasRead_of_mem_readAll htag
  have htext : (TypeExpr.read .first "(number|Client|ns.Map)[]".toList).toOption.map (fun e =>
      (ofExpr (ImportTable.ofTags none tags).1 (Language.policy .python) none e).1) =
      some text := by
    decide +kernel
  cases he : TypeExpr.read .first "(number|Client|ns.Map)[]".toList with
  | error cause =>
    rw [he] at htext
    cases htext
  | ok e =>
    rw [he] at htext
    have htext := Option.some.inj htext
    exact ⟨hread, e, rfl, htext, htext ▸ ofExpr_fits_header .python he none none hread⟩

end DocSignature.TypeText
