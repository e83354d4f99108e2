import DocSignature.Proofs.Derivation
import DocSignature.Proofs.TagLines

/-!
# Types over several lines

A text is cut into lexemes line by line, and blanks around a line do not matter. In the lexemes of a
type there is one more name or star than there are bars, so a type from which a star is taken away
is no type any more.
-/

namespace DocSignature.TypeExpr

open Grammar (isSpace)

/-! ## The characters of lexemes -/

/-- Holds of a character that may stand in a type. -/
def isTypeChar (c : Char) : Bool :=
  isSpace c || Text.isPlainNameChar c || "*()[]|.".toList.contains c

theorem Lexeme.mem_text {l : Lexeme} {c : Char} (h : c ∈ l.text) :
    Text.isPlainNameChar c = true ∨ c ∈ "*()[]|.".toList := by
  cases l with
  | mark m =>
    obtain rfl : c = m.char := by simpa using h
    exact .inr (by cases m <;> decide)
  | name n =>
    rcases Text.mem_intercalate h with h | ⟨part, hpart, h⟩
    · obtain rfl : c = '.' := by simpa using h
      exact .inr (by decide)
    · rcases List.mem_cons.1 hpart with rfl | hpart
      · exact .inl (n.isIdentifier_base.plain c h)
      · exact .inl ((n.isIdentifier_members part hpart).plain c h)

theorem Lexeme.isBlank_of_mem_text {l : Lexeme} {c : Char} (h : c ∈ l.text) :
    Text.isBlank c = false := by
  rcases l.mem_text h with h | h
  · exact Text.isBlank_eq_false_of_isPlainNameChar h
  · have hmarks : ∀ c ∈ "*()[]|.".toList, Text.isBlank c = false :=
      Text.forall_mem_of_all (by decide)
    exact hmarks c h

theorem Lexed.isTypeChar_of_mem {cs : List Char} {ls : List Lexeme} (h : Lexed cs ls) :
    ∀ c ∈ cs, isTypeChar c = true := by
  induction h with
  | nil => simp
  | space hc _ ih => exact List.forall_mem_cons.2 ⟨by simp [isTypeChar, hc], ih⟩
  | lexeme hl _ ih =>
    refine List.forall_mem_append.2 ⟨fun c hc => ?_, ih⟩
    rcases Lexeme.mem_text hc with hc | hc
    · simp [isTypeChar, hc]
    · rw [isTypeChar, List.contains_iff_mem.2 hc, Bool.or_true]

/-! ## Lexemes around a blank -/

theorem Lexeme.not_mem_text {c : Char} (hc : Text.isBlank c = true) (l : Lexeme) : c ∉ l.text := by
  intro hmem
  rw [l.isBlank_of_mem_text hmem] at hc
  cases hc

/-- A blank cuts a text into two, each with its own lexemes. -/
theorem Lexed.split {c : Char} (hc : Text.isBlank c = true) {cs : List Char} {ls : List Lexeme}
    (h : Lexed cs ls) : ∀ {xs ys : List Char}, cs = xs ++ c :: ys →
      ∃ before after, Lexed xs before ∧ Lexed ys after ∧ ls = before ++ after := by
  induction h with
  | nil => intro xs ys heq; simp at heq
  | space hd hcs ih =>
    intro xs ys heq
    cases xs with
    | nil =>
      cases heq
      exact ⟨[], _, .nil, hcs, rfl⟩
    | cons x xs =>
      cases heq
      obtain ⟨before, after, hx, hy, rfl⟩ := ih rfl
      exact ⟨before, after, .space hd hx, hy, rfl⟩
  | @lexeme l rest ls hl hrest ih =>
    intro xs ys heq
    -- The lexeme has no blank, so it ends in front of this one.
    obtain ⟨more, rfl⟩ := Text.prefix_of_not_mem (l.not_mem_text hc) ⟨rest, heq⟩
    rw [List.append_assoc, List.append_cancel_left_eq] at heq
    obtain ⟨before, after, hx, hy, rfl⟩ := ih heq
    refine ⟨l :: before, after, .lexeme (fun l' hl' => hl l' ?_) hx, hy, rfl⟩
    rw [heq, ← List.append_assoc]
    exact hl'.trans (List.prefix_append _ _)

/-- Two texts with a blank between them have the lexemes of both. -/
theorem Lexed.join {c : Char} (hc : isSpace c = true) {xs ys : List Char}
    {before after : List Lexeme} (hx : Lexed xs before) (hy : Lexed ys after) :
    Lexed (xs ++ c :: ys) (before ++ after) := by
  induction hx with
  | nil => exact .space hc hy
  | space hd _ ih => exact .space hd ih
  | @lexeme l rest ls hl _ ih =>
    rw [List.append_assoc, List.cons_append]
    refine .lexeme (fun l' hl' => hl l' ?_) ih
    rw [← List.append_assoc] at hl'
    exact Text.prefix_of_not_mem (l'.not_mem_text (isBlank_of_isSpace hc)) hl'

/-! ## Blanks at the ends -/

theorem Lexed.trimLeft {cs : List Char} {ls : List Lexeme} (h : Lexed cs ls) :
    Lexed (Text.trimLeft cs) ls := by
  induction h with
  | nil => exact .nil
  | space hc _ ih =>
    rw [Text.trimLeft, List.dropWhile_cons_of_pos (isBlank_of_isSpace hc)]
    exact ih
  | @lexeme l rest ls hl hrest _ =>
    obtain ⟨c, cs, htext, hc⟩ := l.exists_text_eq
    rw [Text.trimLeft_eq_self (by simp [htext, hc])]
    exact .lexeme hl hrest

theorem Lexed.trimRight {cs : List Char} {ls : List Lexeme} (h : Lexed cs ls) :
    Lexed (Text.trimRight cs) ls := by
  -- Blanks are taken away from the end, one after the other.
  induction cs using List.reverseRecOn generalizing ls with
  | nil => exact h
  | append_singleton xs c ih =>
    cases hc : Text.isBlank c with
    | false => rwa [Text.trimRight_eq_self (by simpa using hc)]
    | true =>
      obtain ⟨before, after, hx, hnil, rfl⟩ := h.split hc rfl
      have htrim : Text.trimRight (xs ++ [c]) = Text.trimRight xs := by
        simp [Text.trimRight, hc]
      rw [htrim, hnil.eq_nil, List.append_nil]
      exact ih hx

theorem Lexed.trim {cs : List Char} {ls : List Lexeme} (h : Lexed cs ls) :
    Lexed (Text.trim cs) ls :=
  h.trimLeft.trimRight

/-! ## Lines -/

theorem Lexed.of_unlines {line : List Char} {later : List (List Char)} :
    ∀ {ls : List Lexeme}, Lexed (Text.unlines (line :: later)) ls →
      ∃ part parts, Lexed line part ∧ List.Forall₂ Lexed later parts ∧
        ls = part ++ parts.flatten := by
  induction later generalizing line with
  | nil =>
    intro ls h
    exact ⟨ls, [], by simpa [Text.unlines] using h, .nil, by simp⟩
  | cons second later ih =>
    intro ls h
    rw [Text.unlines_cons_cons] at h
    obtain ⟨part, rest, hline, hrest, rfl⟩ := h.split (by decide) rfl
    obtain ⟨next, parts, hnext, hparts, rfl⟩ := ih hrest
    exact ⟨part, next :: parts, hline, .cons hnext hparts, rfl⟩

theorem lexed_unlines {lines : List (List Char)} {parts : List (List Lexeme)}
    (h : List.Forall₂ Lexed lines parts) : Lexed (Text.unlines lines) parts.flatten := by
  induction h with
  | nil => exact .nil
  | @cons line part lines parts hline hlines ih =>
    cases lines with
    | nil =>
      cases hlines
      simpa [Text.unlines] using hline
    | cons second lines =>
      rw [Text.unlines_cons_cons, List.flatten_cons]
      exact hline.join (by decide) ih

/-! ## Operands and bars -/

/-- What a lexeme adds to the number of operands over that of bars. -/
def Lexeme.weight : Lexeme → Int
  | name _ | mark .star => 1
  | mark .bar => -1
  | mark _ => 0

/-- How many more operands than bars there are. -/
def weight : List Lexeme → Int
  | [] => 0
  | l :: ls => l.weight + weight ls

@[simp]
theorem weight_nil : weight [] = 0 := rfl

@[simp]
theorem weight_cons (l : Lexeme) (ls : List Lexeme) : weight (l :: ls) = l.weight + weight ls := rfl

@[simp]
theorem weight_append (xs ys : List Lexeme) : weight (xs ++ ys) = weight xs + weight ys := by
  induction xs with
  | nil => simp
  | cons l xs ih => rw [List.cons_append, weight_cons, weight_cons, ih, Int.add_assoc]

/-- A type has one operand more than it has bars. -/
theorem Derivation.weight_lexemes {s : Category} (d : Derivation s) : weight d.lexemes = 1 := by
  induction d with
  | name n => rfl
  | star => rfl
  | group inner ih => simp [lexemes, Lexeme.weight, ih]
  | atom a ih => exact ih
  | array t ih => simp [lexemes, Lexeme.weight, ih]
  | term t ih => exact ih
  | union t rest iht ihrest => simp [lexemes, Lexeme.weight, iht, ihrest]

end DocSignature.TypeExpr
