import DocSignature.Proofs.TagLines
import DocSignature.Tag.Reader

/-!
# Comments with one tag

A comment of which only the first line starts a tag has this one tag, and all its lines are the text
of the tag. Braces around a text without braces are found as a pair.
-/

namespace DocSignature.Tag

/-! ## The one tag of a comment -/

theorem gather_eq_nil {ls : List Line} (h : ∀ l ∈ ls, startsTag l.text = false) :
    gather ls = [] := by
  induction ls with
  | nil => rfl
  | cons line ls ih =>
    have hline : startedName? line.text = none := by
      rw [← Option.not_isSome_iff_eq_none, isSome_startedName?, h line (by simp)]
      simp
    rw [gather, hline]
    exact ih fun l hl => h l (by simp [hl])

theorem gather_single {line : Line} {rest : List Line} {name : List Char}
    (hname : startedName? line.text = some name) (hrest : ∀ l ∈ rest, startsTag l.text = false) :
    gather (line :: rest) = [⟨name, line.loc,
      Text.trimRight (Text.unlines (line.text :: rest.map (·.text)))⟩] := by
  have hall : rest.takeWhile (fun l => (startedName? l.text).isNone) = rest := by
    rw [List.takeWhile_eq_self_iff]
    intro l hl
    rw [← Option.not_isSome, isSome_startedName?, hrest l hl]
    rfl
  rw [gather, hname]
  simp only [hall, gather_eq_nil hrest]

theorem bodyOf_comment (body : List Char) :
    bodyOf ("/**".toList ++ body ++ "*/".toList) = body := by
  have hlength : ("/**".toList ++ body ++ "*/".toList).length - 5 = body.length := by
    simp
  rw [bodyOf, hlength, List.append_assoc,
    show (3 : Nat) = "/**".toList.length by decide, List.drop_left, List.take_left]

/-- When only the first line of a comment starts a tag, the comment has this tag and no other. -/
theorem rawTags_single (loc : Loc) {text first name : List Char} {later : List (List Char)}
    (hlines : Text.lines (' ' :: text ++ [' ']) = (' ' :: first) :: later)
    (hfirst : ∀ c ∈ first.head?, Text.isBlank c = false)
    (hname : startedName? (Text.trimRight first) = some name)
    (hlater : ∀ line ∈ later, startsTag (Text.trim (undecorated line)) = false) :
    rawTags loc ("/** ".toList ++ text ++ " */".toList) =
      [⟨name, loc.forward 4, Text.trimRight (Text.unlines
        (Text.trimRight first :: later.map fun line => Text.trim (undecorated line)))⟩] := by
  have hcomment : "/** ".toList ++ text ++ " */".toList =
      "/**".toList ++ (' ' :: text ++ [' ']) ++ "*/".toList := by simp
  have hleft : Text.trimLeft (' ' :: first) = first := by
    rw [← List.singleton_append, Text.trimLeft_append (by simp), Text.trimLeft_eq_self hfirst]
  have hline : lineAt (loc.forward 3) (' ' :: first) (' ' :: first) =
      ⟨loc.forward 4, Text.trimRight first⟩ := by
    simp only [lineAt, hleft, List.length_cons, Nat.add_sub_cancel_left]
    rfl
  have htexts : (laterLines (loc.line + 1) later).map (·.text) =
      later.map fun line => Text.trim (undecorated line) := by
    rw [texts_laterLines, List.map_map]
    rfl
  rw [hcomment, rawTags, bodyLines_eq (by rw [bodyOf_comment]; exact hlines), hline,
    gather_single hname, htexts]
  intro l hl
  have hmem : l.text ∈ (laterLines (loc.line + 1) later).map (·.text) := List.mem_map_of_mem hl
  rw [htexts] at hmem
  obtain ⟨line, hline, heq⟩ := List.mem_map.1 hmem
  rw [← heq]
  exact hlater line hline

/-- The tag on the only line of a comment. -/
theorem rawTags_line (loc : Loc) {text name : List Char} (htext : Text.Trimmed text)
    (hline : '\n' ∉ text) (hname : startedName? text = some name) :
    rawTags loc ("/** ".toList ++ text ++ " */".toList) = [⟨name, loc.forward 4, text⟩] := by
  have hcut : Text.lines (' ' :: text ++ [' ']) = [' ' :: (text ++ [' '])] := by
    have hmark : '\n' ∉ ' ' :: (text ++ [' ']) := by simpa using hline
    have hone := TypeExpr.cut_append hmark (rfl : Text.cut '\n' [] = [[]])
    rwa [List.append_nil] at hone
  have hhead : ∀ c ∈ (text ++ [' ']).head?, Text.isBlank c = false := by
    rw [List.head?_append_of_ne_nil _ htext.ne_nil]
    exact htext.head
  have hright : Text.trimRight (text ++ [' ']) = text := by
    rw [Text.trimRight_append htext.last]
    simp [Text.trimRight]
  have htags := rawTags_single loc hcut hhead (by rw [hright]; exact hname) (by simp)
  have hone : Text.unlines [text] = text := List.append_nil text
  rwa [hright, List.map_nil, hone, Text.trimRight_eq_self htext.last] at htags

/-- What is read from a comment with one tag. -/
theorem readAll_single (file : Option String) {loc : Loc} {text : List Char} {raw : Raw}
    (h : rawTags loc text = [raw]) :
    readAll file loc text = ([(read file raw).1], (read file raw).2) := by
  simp [readAll, h]

/-! ## Braces -/

/-- A brace behind a text without braces closes the one in front of it. -/
theorem braceEnd?_append {xs : List Char} (hopen : '{' ∉ xs) (hclose : '}' ∉ xs) (cs : List Char) :
    braceEnd? 0 (xs ++ '}' :: cs) = some xs.length := by
  induction xs with
  | nil => rfl
  | cons x xs ih =>
    have hx : x ≠ '{' ∧ x ≠ '}' := ⟨fun h => hopen (by simp [h]), fun h => hclose (by simp [h])⟩
    rw [List.cons_append, braceEnd?, if_neg hx.1, if_neg hx.2,
      ih (fun h => hopen (by simp [h])) fun h => hclose (by simp [h])]
    rfl

end DocSignature.Tag
