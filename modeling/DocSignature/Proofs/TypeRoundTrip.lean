import DocSignature.Proofs.TypeGrammar

/-!
# Types are read back from their text

The text of a type that was read is read as the same type, places aside. The text has a derivation
of its own, with parentheses around the unions that are elements of arrays and nowhere else.
-/

namespace DocSignature.TypeExpr

open Grammar (dottedTail)

/-! ## The text does not show places -/

theorem isUnion_unplaced (e : TypeExpr) : e.unplaced.isUnion = e.isUnion := by
  cases e <;> rfl

mutual

theorem text_unplaced : ∀ e : TypeExpr, e.unplaced.text = e.text
  | .ref _ => rfl
  | .array _ element => by rw [unplaced, text, text, isUnion_unplaced, text_unplaced element]
  | .union _ members => by rw [unplaced, text, text, texts_unplacedAll members]

theorem texts_unplacedAll : ∀ es : List TypeExpr, texts (unplacedAll es) = texts es
  | [] => rfl
  | e :: es => by rw [unplacedAll, texts, texts, text_unplaced e, texts_unplacedAll es]

end

/-! ## The text of a union -/

theorem texts_append (xs ys : List TypeExpr) : texts (xs ++ ys) = texts xs ++ texts ys := by
  induction xs with
  | nil => rfl
  | cons x xs ih => rw [List.cons_append, texts, texts, ih, List.cons_append]

theorem texts_ne_nil {es : List TypeExpr} (h : es ≠ []) : (texts es).map String.toList ≠ [] := by
  cases es with
  | nil => exact absurd rfl h
  | cons e es => simp [texts]

theorem intercalate_append {α : Type} (sep : List α) {xs ys : List (List α)} (hx : xs ≠ [])
    (hy : ys ≠ []) :
    sep.intercalate (xs ++ ys) = sep.intercalate xs ++ sep ++ sep.intercalate ys := by
  induction xs with
  | nil => exact absurd rfl hx
  | cons x xs ih =>
    cases xs with
    | nil =>
      obtain ⟨y, ys, rfl⟩ := List.exists_cons_of_ne_nil hy
      simp [List.intercalate_cons_cons]
    | cons x' xs =>
      have ih := ih (by simp)
      rw [List.cons_append] at ih
      simp [List.intercalate_cons_cons, ih]

/-- A type is written as the members that it adds to a union, with bars between them. -/
theorem toList_text (e : TypeExpr) :
    e.text.toList = ['|'].intercalate ((texts (spread e)).map String.toList) := by
  cases e with
  | ref name => simp [spread, texts]
  | array loc element => simp [spread, texts]
  | union loc members => rw [text, spread, String.toList_intercalate]; rfl

namespace Derivation

theorem spread_type_ne_nil {s : Category} (d : Derivation s) : spread d.type ≠ [] := by
  induction d with
  | name n => simp [type, spread]
  | star => simp [type, spread]
  | group inner ih => exact ih
  | atom a ih => exact ih
  | array t ih => simp [type, spread]
  | term t ih => exact ih
  | union t rest iht ih => exact List.append_ne_nil_of_left_ne_nil iht _

theorem toList_text_union (t : Derivation .term) (rest : Derivation .expr) :
    (union t rest).type.text.toList = t.type.text.toList ++ ['|'] ++ rest.type.text.toList := by
  have hunion := toList_text (union t rest).type
  rw [type, spread, texts_append, List.map_append, intercalate_append _
    (texts_ne_nil t.spread_type_ne_nil) (texts_ne_nil rest.spread_type_ne_nil)] at hunion
  rw [type, hunion, toList_text t.type, toList_text rest.type]

/-! ## A derivation of the text -/

/-- Lexemes written one behind the other. -/
def written {s : Category} (d : Derivation s) : List Char :=
  d.lexemes.flatMap Lexeme.text

/-- The terms of two types, one behind the other. -/
def append (d e : Derivation .expr) : Derivation .expr :=
  chain (d.last :: d.front) e

theorem lexemes_append (d e : Derivation .expr) :
    (d.append e).lexemes = d.lexemes ++ .mark .bar :: e.lexemes := by
  have hd := lexemes_chain d.front (.term d.last)
  rw [chain_front, lexemes] at hd
  rw [append, lexemes_chain, barred_cons, hd]
  simp

theorem type_append (d e : Derivation .expr) :
    (d.append e).type = .union .first (spread d.type ++ spread e.type) := by
  have hd := spread_chain d.front (.term d.last)
  rw [chain_front] at hd
  rw [append, type_chain (by simp), hd]
  simp [type]

/-- The name that the star stands for. -/
def anyDotted : DottedName :=
  ⟨anyName.toList, [], isIdentifier_anyName, by simp⟩

theorem toList_text_name (n : DottedName) : (name n).type.text.toList = n.text := by
  rw [type, TypeExpr.text, TypeRef.text, String.toList_intercalate, DottedName.text]
  simp [Function.comp_def]

/-- Every type that is derived has a derivation that is written as the text of the type. -/
theorem exists_written {s : Category} (d : Derivation s) :
    ∃ d' : Derivation .expr, d'.type = d.type ∧ d'.written = d.type.text.toList := by
  induction d with
  | name n =>
    refine ⟨.term (.atom (.name n)), rfl, ?_⟩
    rw [toList_text_name]
    simp [written, lexemes]
  | star =>
    refine ⟨.term (.atom (.name anyDotted)), ?_, ?_⟩
    · simp [type, anyDotted, anyName]
    · simp [written, lexemes, type, anyDotted, TypeExpr.text, TypeRef.text, DottedName.text,
        anyName]
  | group inner ih => exact ih
  | atom a ih => exact ih
  | array t ih =>
    obtain ⟨d', htype, hwritten⟩ := ih
    cases hunion : t.type.isUnion with
    | true =>
      refine ⟨.term (.array (.atom (.group d'))), congrArg (TypeExpr.array .first) htype, ?_⟩
      rw [written] at hwritten
      simp [written, lexemes, type, TypeExpr.text, hunion, hwritten, Mark.char]
    | false =>
      cases d' with
      | union t' rest =>
        rw [← htype, type] at hunion
        cases hunion
      | term t' =>
        refine ⟨.term (.array t'), congrArg (TypeExpr.array .first) htype, ?_⟩
        rw [written, lexemes] at hwritten
        simp [written, lexemes, type, TypeExpr.text, hunion, hwritten, Mark.char]
  | term t ih => exact ih
  | union t rest iht ih =>
    obtain ⟨front, htype, hwritten⟩ := iht
    obtain ⟨back, htype', hwritten'⟩ := ih
    refine ⟨front.append back, by rw [type_append, htype, htype', type], ?_⟩
    rw [toList_text_union, ← hwritten, ← hwritten', written, lexemes_append]
    simp [written, Mark.char]

/-! ## Its lexemes -/

theorem lexed_mark (m : Mark) {rest : List Char} {ls : List Lexeme} (h : Lexed rest ls) :
    Lexed (m.char :: rest) (.mark m :: ls) :=
  Lexed.lexeme (Lexeme.longest_mark m rest) h

theorem dottedTail_mark (m : Mark) (rest : List Char) : dottedTail (m.char :: rest) = 0 :=
  dottedTail_eq_zero (by simp [m.isPlainNameChar_char, m.char_ne_dot])

/-- What is written is cut into the lexemes it was written from, where the text behind it is no part
of a name. -/
theorem lexed_written {s : Category} (d : Derivation s) :
    ∀ {rest : List Char} {ls : List Lexeme}, Lexed rest ls → dottedTail rest = 0 →
      Lexed (d.written ++ rest) (d.lexemes ++ ls) := by
  induction d with
  | name n =>
    intro rest ls hrest hstop
    simpa [written, lexemes] using Lexed.lexeme ((Lexeme.longest_name_iff n rest).2 hstop) hrest
  | star =>
    intro rest ls hrest hstop
    exact lexed_mark .star hrest
  | group inner ih =>
    intro rest ls hrest hstop
    have hinner := ih (lexed_mark .rightParen hrest) (dottedTail_mark _ _)
    simpa [written, lexemes] using lexed_mark .leftParen hinner
  | atom a ih => exact ih
  | array t ih =>
    intro rest ls hrest hstop
    have hbrackets := lexed_mark .leftBracket (lexed_mark .rightBracket hrest)
    simpa [written, lexemes] using ih hbrackets (dottedTail_mark _ _)
  | term t ih => exact ih
  | union t rest iht ih =>
    intro behind ls hbehind hstop
    have hrest := lexed_mark .bar (ih hbehind hstop)
    simpa [written, lexemes] using iht hrest (dottedTail_mark _ _)

end Derivation

/-- The text of a type that was read is read as the same type, places aside. -/
theorem read_reads_back_text (base base' : Loc) (cs : List Char) (e : TypeExpr)
    (h : read base cs = .ok e) :
    ∃ e', read base' e.text.toList = .ok e' ∧ e'.unplaced = e.unplaced := by
  obtain ⟨d, -, htype⟩ := exists_derivation_of_read h
  obtain ⟨d', htype', hwritten⟩ := d.exists_written
  have hlexed : Lexed e.text.toList d'.lexemes := by
    rw [← text_unplaced, htype, ← hwritten]
    simpa using d'.lexed_written .nil rfl
  obtain ⟨e', hread, hsame⟩ := exists_read_of_derivation base' hlexed
  exact ⟨e', hread, by rw [hsame, htype', htype]⟩

/-- Nested unions, a star and a keyword as a name are read back. -/
theorem read_reads_back_nested_union :
    ∃ e e', read .first "((a|(b | *))[][] | from)[]".toList = .ok e ∧
      e.text = "((a|b|any)[][]|from)[]" ∧ read .first e.text.toList = .ok e' ∧
      e'.unplaced = e.unplaced := by
  have hread : (read .first "((a|(b | *))[][] | from)[]".toList).toOption.map text =
      some "((a|b|any)[][]|from)[]" := by
    decide +kernel
  cases he : read .first "((a|(b | *))[][] | from)[]".toList with
  | error error =>
    rw [he] at hread
    cases hread
  | ok e =>
    rw [he] at hread
    obtain ⟨e', hread', hsame⟩ := read_reads_back_text .first .first _ e he
    exact ⟨e, e', rfl, Option.some.inj hread, hread', hsame⟩

end DocSignature.TypeExpr
