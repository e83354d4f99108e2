import DocSignature.Proofs.LexedLines
import DocSignature.Proofs.SingleTag
import DocSignature.Proofs.TypeGrammar

/-!
# Types in the text of a tag

A type in a comment may go over several lines, which the tag keeps without their decoration and the
blanks around them. A star at the start of a line counts as decoration. So the type is read as it
was written, unless one of its later lines starts with a star: then it is no type any more.
-/

namespace DocSignature.Tag

/-! ## What is kept of a type -/

/-- Holds of a line that starts with a star, or with blanks and a star. -/
def startsStar (line : List Char) : Bool :=
  (Text.trimLeft line).head? == some '*'

/-- What a tag keeps of the later lines of a type, the last of which goes on behind the type. -/
def bareLater : List (List Char) → List (List Char)
  | [] => []
  | [line] => [Text.trimLeft (undecorated line)]
  | line :: next :: later => Text.trim (undecorated line) :: bareLater (next :: later)

/-- What a tag keeps of a type. -/
def bareText (type : List Char) : List Char :=
  match Text.lines type with
  | first :: next :: later => Text.unlines (Text.trimRight first :: bareLater (next :: later))
  | _ => type

theorem bareText_of_line {type first : List Char} (h : Text.lines type = [first]) :
    bareText type = type := by
  rw [bareText, h]

theorem bareText_of_lines {type first next : List Char} {later : List (List Char)}
    (h : Text.lines type = first :: next :: later) :
    bareText type = Text.unlines (Text.trimRight first :: bareLater (next :: later)) := by
  rw [bareText, h]

theorem exists_bareLater_cons (line : List Char) (later : List (List Char)) :
    ∃ first rest, bareLater (line :: later) = first :: rest := by
  cases later with
  | nil => exact ⟨_, _, rfl⟩
  | cons next later => exact ⟨_, _, rfl⟩

/-! ## The lexemes that are kept -/

open TypeExpr (Lexed Lexeme weight)

theorem not_mem_type {cs : List Char} {ls : List Lexeme} (h : Lexed cs ls) {c : Char}
    (hc : TypeExpr.isTypeChar c = false) : c ∉ cs := by
  intro hmem
  rw [h.isTypeChar_of_mem c hmem] at hc
  cases hc

/-- A line of a type loses a star at its start and keeps all else. -/
theorem lexed_undecorated {line : List Char} {ls : List Lexeme} (h : Lexed line ls) :
    ∃ kept, Lexed (undecorated line) kept ∧
      ls = if startsStar line then .mark .star :: kept else kept := by
  have htrim := h.trimLeft
  have hslash : '/' ∉ Text.trimLeft line := not_mem_type htrim (by decide)
  unfold undecorated
  split
  · rename_i rest hstar
    rw [hstar] at htrim hslash
    obtain ⟨kept, rfl, hrest⟩ := @Lexed.of_lexeme (.mark .star) rest ls htrim
      (Lexeme.longest_mark _ _)
    refine ⟨kept, ?_, by simp [startsStar, hstar]⟩
    split
    · simp at hslash
    · rename_i c more _
      split
      · rename_i hc
        obtain ⟨before, after, hbefore, hmore, rfl⟩ :=
          @Lexed.split c hc (c :: more) kept hrest [] more rfl
        rwa [hbefore.eq_nil, List.nil_append]
      · exact hrest
    · exact hrest
  · rename_i hstar
    refine ⟨ls, h, ?_⟩
    have hnot : startsStar line = false := by
      rw [startsStar, beq_eq_false_iff_ne]
      intro hhead
      obtain ⟨rest, hrest⟩ := List.head?_eq_some_iff.1 hhead
      exact hstar rest hrest
    simp [hnot]

/-- Each later line of a type that starts with a star has one operand less. -/
theorem lexed_bareLater {lines : List (List Char)} {parts : List (List Lexeme)}
    (h : List.Forall₂ Lexed lines parts) :
    ∃ kept, List.Forall₂ Lexed (bareLater lines) kept ∧
      weight parts.flatten = weight kept.flatten + lines.countP startsStar ∧
      (lines.countP startsStar = 0 → kept = parts) := by
  induction h with
  | nil => exact ⟨[], .nil, by simp, fun _ => rfl⟩
  | @cons line part lines parts hline hlines ih =>
    obtain ⟨kept, hkept, hpart⟩ := lexed_undecorated hline
    obtain ⟨others, hothers, hweight, heq⟩ := ih
    refine ⟨kept :: others, ?_, ?_, ?_⟩
    · cases lines with
      | nil => exact .cons hkept.trimLeft hothers
      | cons next lines => exact .cons hkept.trim hothers
    · rw [hpart, List.countP_cons]
      cases startsStar line with
      | true =>
        simp [hweight, Lexeme.weight]
        omega
      | false =>
        simp [hweight]
        omega
    · intro hnone
      rw [List.countP_cons] at hnone
      cases hstar : startsStar line with
      | true => simp [hstar] at hnone
      | false =>
        rw [hstar] at hpart hnone
        rw [heq (by simpa using hnone), hpart]
        rfl

/-- The number of lines behind the first that start with a star. -/
def starLines (type : List Char) : Nat :=
  (Text.lines type).tail.countP startsStar

theorem lexed_bareText {type : List Char} {ls : List Lexeme} (h : Lexed type ls) :
    ∃ kept, Lexed (bareText type) kept ∧ weight ls = weight kept + starLines type ∧
      (starLines type = 0 → kept = ls) := by
  have hlines : Text.unlines (Text.lines type) = type := TypeExpr.intercalate_cut '\n' type
  unfold bareText starLines
  split
  · rename_i first next later hcut
    rw [hcut] at hlines
    rw [← hlines] at h
    obtain ⟨part, parts, hfirst, hlater, rfl⟩ := h.of_unlines
    obtain ⟨kept, hkept, hweight, heq⟩ := lexed_bareLater hlater
    have hall := TypeExpr.lexed_unlines (List.Forall₂.cons hfirst.trimRight hkept)
    refine ⟨part ++ kept.flatten, by simpa using hall, ?_, ?_⟩
    · rw [hcut, TypeExpr.weight_append, TypeExpr.weight_append, hweight, List.tail_cons]
      omega
    · intro hnone
      rw [hcut] at hnone
      rw [heq hnone]
  · rename_i hcut
    have hnone : (Text.lines type).tail = [] := by
      cases hlines : Text.lines type with
      | nil => rfl
      | cons first later =>
        cases later with
        | nil => rfl
        | cons next later => exact absurd hlines (hcut first next later)
    exact ⟨ls, h, by simp [hnone], fun _ => rfl⟩

/-- A type is read from what is kept of it when no later line starts with a star. -/
theorem read_bareText {base : Loc} {type : List Char} {e : TypeExpr}
    (h : TypeExpr.read base type = .ok e) (hstar : starLines type = 0) (base' : Loc) :
    ∃ e', TypeExpr.read base' (bareText type) = .ok e' ∧ e'.unplaced = e.unplaced := by
  obtain ⟨d, hlexed, htype⟩ := TypeExpr.exists_derivation_of_read h
  obtain ⟨kept, hkept, -, heq⟩ := lexed_bareText hlexed
  rw [heq hstar] at hkept
  obtain ⟨e', hread, htype'⟩ := TypeExpr.exists_read_of_derivation base' hkept
  exact ⟨e', hread, htype'.trans htype.symm⟩

/-- What is kept of a type is no type when a later line starts with a star. -/
theorem not_read_bareText {base : Loc} {type : List Char} {e : TypeExpr}
    (h : TypeExpr.read base type = .ok e) (hstar : starLines type ≠ 0) (base' : Loc) :
    ∃ error, TypeExpr.read base' (bareText type) = .error error := by
  obtain ⟨d, hlexed, -⟩ := TypeExpr.exists_derivation_of_read h
  obtain ⟨kept, hkept, hweight, -⟩ := lexed_bareText hlexed
  rw [d.weight_lexemes] at hweight
  cases hread : TypeExpr.read base' (bareText type) with
  | error error => exact ⟨error, rfl⟩
  | ok e' =>
    -- Of what was read there would be one operand more than bars, too.
    obtain ⟨d', hlexed', -⟩ := TypeExpr.exists_derivation_of_read hread
    rw [hkept.unique hlexed', d'.weight_lexemes] at hweight
    omega

/-! ## The lines of the tag -/

/-- Lines with a text put behind the last one. -/
def goOn (text : List Char) : List (List Char) → List (List Char)
  | [] => []
  | [line] => [line ++ text]
  | line :: next :: later => line :: goOn text (next :: later)

theorem mem_goOn {text x : List Char} {lines : List (List Char)} (h : x ∈ goOn text lines) :
    ∃ line ∈ lines, x = line ∨ x = line ++ text := by
  fun_induction goOn text lines with
  | case1 => cases h
  | case2 line => exact ⟨line, by simp, .inr (by simpa using h)⟩
  | case3 line next later ih =>
    rcases List.mem_cons.1 h with rfl | h
    · exact ⟨x, by simp, .inl rfl⟩
    · obtain ⟨other, hother, hx⟩ := ih h
      exact ⟨other, List.mem_cons_of_mem _ hother, hx⟩

theorem unlines_goOn (text line : List Char) (later : List (List Char)) :
    Text.unlines (goOn text (line :: later)) = Text.unlines (line :: later) ++ text := by
  induction later generalizing line with
  | nil => simp [goOn, Text.unlines]
  | cons next later ih =>
    obtain ⟨first, rest, hcons⟩ : ∃ first rest, goOn text (next :: later) = first :: rest := by
      cases later <;> exact ⟨_, _, rfl⟩
    have ih := ih next
    rw [hcons] at ih
    rw [goOn, hcons, Text.unlines_cons_cons, ih, Text.unlines_cons_cons, List.append_assoc,
      List.cons_append]

theorem subset_unlines {line : List Char} {lines : List (List Char)} (h : line ∈ lines) :
    line ⊆ Text.unlines lines := by
  induction lines with
  | nil => cases h
  | cons first lines ih =>
    obtain ⟨rest, hrest, -⟩ := Text.exists_unlines_cons first lines
    rcases List.mem_cons.1 h with rfl | h
    · rw [hrest]
      exact List.subset_append_left _ _
    · cases lines with
      | nil => cases h
      | cons second lines =>
        rw [Text.unlines_cons_cons]
        exact fun c hc => List.mem_append_right _ (List.mem_cons_of_mem _ (ih h hc))

/-- The lines of a text that goes on behind some lines. -/
theorem lines_append {line : List Char} {later : List (List Char)}
    (hlines : ∀ l ∈ line :: later, '\n' ∉ l) {text : List Char} (htext : '\n' ∉ text) :
    Text.lines (Text.unlines (line :: later) ++ text) = goOn text (line :: later) := by
  have hmem : ∀ l ∈ goOn text (line :: later), '\n' ∉ l := by
    intro l hl
    obtain ⟨other, hother, rfl | rfl⟩ := mem_goOn hl
    · exact hlines l hother
    · simp [hlines other hother, htext]
  rw [← unlines_goOn]
  cases hcons : goOn text (line :: later) with
  | nil => cases later <;> cases hcons
  | cons first rest =>
    rw [hcons] at hmem
    exact TypeExpr.cut_intercalate (hmem first (by simp)) fun l hl => hmem l (by simp [hl])

theorem trimLeft_append_of_eq_nil {xs : List Char} (h : Text.trimLeft xs = []) (ys : List Char) :
    Text.trimLeft (xs ++ ys) = Text.trimLeft ys :=
  Text.trimLeft_append (List.dropWhile_eq_nil_iff.1 h) ys

/-- What follows on a line does not change what its decoration is. -/
theorem trimLeft_undecorated_append (line : List Char) {c : Char} (hc : Text.isBlank c = false)
    (hstar : c ≠ '*') (hslash : c ≠ '/') (rest : List Char) :
    Text.trimLeft (undecorated (line ++ c :: rest)) =
      Text.trimLeft (undecorated line) ++ c :: rest := by
  by_cases hnil : Text.trimLeft (undecorated line) = []
  · -- All of the line is decoration and blanks.
    have hself : Text.trimLeft (c :: rest) = c :: rest := Text.trimLeft_eq_self (by simpa using hc)
    rw [hnil, List.nil_append]
    cases hline : Text.trimLeft line with
    | nil =>
      have hleft := trimLeft_append_of_eq_nil hline (c :: rest)
      rw [hself] at hleft
      have hbare : undecorated (line ++ c :: rest) = line ++ c :: rest := by
        simp [undecorated, hleft, hstar]
      rw [hbare, hleft]
    | cons d more =>
      have hleft : Text.trimLeft (line ++ c :: rest) = d :: (more ++ c :: rest) := by
        rw [Text.trimLeft_append_of_ne_nil (by simp [hline]), hline, List.cons_append]
      by_cases hd : d = '*'
      · subst hd
        cases more with
        | nil =>
          have hbare : undecorated (line ++ c :: rest) = c :: rest := by
            simp [undecorated, hleft, hc]
          rw [hbare, hself]
        | cons b more =>
          by_cases hb : b = '/'
          · simp [undecorated, hline, hb] at hnil
          · cases hblank : Text.isBlank b with
            | false =>
              have hbare : undecorated line = b :: more := by simp [undecorated, hline, hblank]
              rw [hbare, Text.trimLeft_eq_self (by simpa using hblank)] at hnil
              cases hnil
            | true =>
              have hmore : Text.trimLeft more = [] := by
                simpa [undecorated, hline, hb, hblank] using hnil
              have hbare : undecorated (line ++ c :: rest) = more ++ c :: rest := by
                simp [undecorated, hleft, hblank]
              rw [hbare, trimLeft_append_of_eq_nil hmore, hself]
      · simp [undecorated, hline, hd] at hnil
  · rw [undecorated_append hnil, Text.trimLeft_append_of_ne_nil hnil]

/-- What is kept of the later lines when the text behind the type ends the last one. -/
theorem trim_undecorated_goOn {more : List Char}
    (hlast : ∀ c ∈ ('}' :: more).getLast?, Text.isBlank c = false) (line : List Char)
    (later : List (List Char)) :
    (goOn ('}' :: more ++ [' ']) (line :: later)).map (fun l => Text.trim (undecorated l)) =
      goOn ('}' :: more) (bareLater (line :: later)) := by
  induction later generalizing line with
  | nil =>
    have hleft := trimLeft_undecorated_append line (by decide : Text.isBlank '}' = false)
      (by decide) (by decide) (more ++ [' '])
    have hright : Text.trimRight
        (Text.trimLeft (undecorated line) ++ '}' :: more ++ [' ']) =
        Text.trimLeft (undecorated line) ++ '}' :: more := by
      rw [Text.trimRight_append (by rw [List.getLast?_append_of_ne_nil _ (by simp)]; exact hlast)]
      simp [Text.trimRight]
    simp only [goOn, bareLater, List.map_cons, List.map_nil, Text.trim, List.cons_append]
    rw [hleft, ← List.cons_append, ← List.append_assoc, hright]
  | cons next later ih =>
    obtain ⟨first, rest, hcons⟩ := exists_bareLater_cons next later
    have ih := ih next
    rw [hcons] at ih
    rw [goOn, List.map_cons, ih, bareLater, hcons, goOn]

theorem mem_bareLater {x : List Char} {lines : List (List Char)} (h : x ∈ bareLater lines) :
    ∃ line ∈ lines, x ⊆ line := by
  have hleft (line : List Char) : Text.trimLeft (undecorated line) ⊆ line :=
    ((List.dropWhile_suffix _).trans (undecorated_suffix line)).subset
  fun_induction bareLater lines with
  | case1 => cases h
  | case2 line =>
    obtain rfl := List.mem_singleton.1 h
    exact ⟨line, by simp, hleft line⟩
  | case3 line next later ih =>
    rcases List.mem_cons.1 h with rfl | h
    · exact ⟨line, by simp, List.Subset.trans (Text.trimRight_prefix _).subset (hleft line)⟩
    · obtain ⟨other, hother, hx⟩ := ih h
      exact ⟨other, List.mem_cons_of_mem _ hother, hx⟩

theorem startsTag_eq_false {line : List Char} (h : line.head? ≠ some '@') :
    startsTag line = false := by
  unfold startsTag
  split
  · exact absurd rfl h
  · rfl

/-- No later line of a type starts a tag. -/
theorem startsTag_goOn {more : List Char}
    (hlast : ∀ c ∈ ('}' :: more).getLast?, Text.isBlank c = false) {line : List Char}
    {later : List (List Char)} (hat : ∀ l ∈ line :: later, '@' ∉ l) :
    ∀ l ∈ goOn ('}' :: more ++ [' ']) (line :: later),
      startsTag (Text.trim (undecorated l)) = false := by
  intro l hl
  apply startsTag_eq_false
  have hmem := List.mem_map_of_mem (f := fun l => Text.trim (undecorated l)) hl
  rw [trim_undecorated_goOn hlast] at hmem
  obtain ⟨x, hx, heq⟩ := mem_goOn hmem
  obtain ⟨other, hother, hsub⟩ := mem_bareLater hx
  have hnot : '@' ∉ x := fun h => hat other hother (hsub h)
  intro hhead
  rcases heq with heq | heq
  · rw [heq] at hhead
    exact hnot (List.mem_of_mem_head? hhead)
  · rw [heq, List.head?_append] at hhead
    cases hfirst : x.head? with
    | none => simp [hfirst] at hhead
    | some c =>
      rw [hfirst] at hhead
      cases hhead
      exact hnot (List.mem_of_mem_head? hfirst)

/-- The start of a tag that documents a parameter, up to the brace of its type. -/
def paramOpening : List Char :=
  '@' :: ("param".toList ++ " \x7b".toList)

theorem paramOpening_eq : paramOpening = ['@', 'p', 'a', 'r', 'a', 'm', ' ', '{'] := by
  simp [paramOpening]

theorem startedName?_paramOpening (cs : List Char) :
    startedName? (paramOpening ++ cs) = some "param".toList := by
  rw [paramOpening_eq, show "param".toList = ['p', 'a', 'r', 'a', 'm'] by simp]
  rfl

theorem head_paramOpening (cs : List Char) :
    ∀ c ∈ (paramOpening ++ cs).head?, Text.isBlank c = false := by
  rw [paramOpening_eq]
  exact fun c hc => by cases hc; decide

theorem trimRight_paramOpening (cs : List Char) :
    Text.trimRight (paramOpening ++ cs) = paramOpening ++ Text.trimRight cs := by
  apply Text.trimRight_append
  rw [paramOpening_eq]
  intro c hc
  cases hc
  rfl

theorem line_paramOpening : '\n' ∉ paramOpening := by
  rw [paramOpening_eq]
  decide

section Lines
variable {type more first next : List Char} {later : List (List Char)}
  (hcut : Text.lines type = first :: next :: later)
include hcut

/-- The comment begins on the first line of the type and ends on its last one. -/
theorem lines_paramOpening (hmore : '\n' ∉ more) :
    Text.lines (' ' :: (paramOpening ++ type ++ '}' :: more) ++ [' ']) =
      (' ' :: (paramOpening ++ first)) :: goOn ('}' :: more ++ [' ']) (next :: later) := by
  have hunlines : Text.unlines (Text.lines type) = type := TypeExpr.intercalate_cut '\n' type
  have hlines : ∀ l ∈ Text.lines type, '\n' ∉ l := fun l hl => Text.not_mem_of_mem_cut hl
  rw [hcut] at hunlines hlines
  have happend := @lines_append (' ' :: (paramOpening ++ first)) (next :: later)
    (List.forall_mem_cons.2 ⟨by simp [line_paramOpening, hlines first (by simp)],
      fun l hl => hlines l (List.mem_cons_of_mem _ hl)⟩)
    ('}' :: more ++ [' ']) (by simp [hmore])
  rw [Text.unlines_cons_cons] at happend
  rw [← hunlines, Text.unlines_cons_cons, ← goOn, ← happend]
  simp

theorem unlines_paramOpening :
    Text.unlines (Text.trimRight (paramOpening ++ first) ::
      goOn ('}' :: more) (bareLater (next :: later))) =
      paramOpening ++ bareText type ++ '}' :: more := by
  obtain ⟨line, rest, hcons⟩ := exists_bareLater_cons next later
  rw [trimRight_paramOpening, bareText_of_lines hcut, hcons, ← goOn, unlines_goOn,
    Text.unlines_cons_cons, Text.unlines_cons_cons]
  simp

theorem not_mem_later {c : Char} (hc : c ∉ type) : ∀ l ∈ next :: later, c ∉ l := by
  intro l hl hmem
  have hunlines : Text.unlines (Text.lines type) = type := TypeExpr.intercalate_cut '\n' type
  rw [hcut] at hunlines
  apply hc
  rw [← hunlines]
  exact subset_unlines (List.mem_cons_of_mem _ hl) hmem

end Lines

/-- A comment with a parameter whose type goes over one line or more has one tag, with what is kept
of the type. -/
theorem rawTags_paramOpening (loc : Loc) {type more : List Char} (hat : '@' ∉ type)
    (hmore : '\n' ∉ more) (hlast : ∀ c ∈ ('}' :: more).getLast?, Text.isBlank c = false) :
    rawTags loc ("/** ".toList ++ (paramOpening ++ type ++ '}' :: more) ++ " */".toList) =
      [⟨"param".toList, loc.forward 4, paramOpening ++ bareText type ++ '}' :: more⟩] := by
  have hend (cs : List Char) : ∀ c ∈ (cs ++ '}' :: more).getLast?, Text.isBlank c = false := by
    rw [List.getLast?_append_of_ne_nil _ (by simp)]
    exact hlast
  obtain ⟨first, later, hcut⟩ : ∃ first later, Text.lines type = first :: later :=
    List.exists_cons_of_ne_nil (TypeExpr.cut_ne_nil '\n' type)
  cases later with
  | nil =>
    have hline : '\n' ∉ type := by
      have hunlines : Text.unlines (Text.lines type) = type := TypeExpr.intercalate_cut '\n' type
      rw [hcut, show Text.unlines [first] = first from List.append_nil first] at hunlines
      rw [← hunlines]
      exact Text.not_mem_of_mem_cut (hcut ▸ List.mem_cons_self : first ∈ Text.lines type)
    rw [bareText_of_line hcut]
    refine rawTags_line loc ⟨by simp, ?_, hend _⟩ (by simp [line_paramOpening, hline, hmore]) ?_
    · rw [List.append_assoc]
      exact head_paramOpening _
    · rw [List.append_assoc]
      exact startedName?_paramOpening _
  | cons next later =>
    have htags := rawTags_single loc (lines_paramOpening hcut hmore) (head_paramOpening first)
      (by rw [trimRight_paramOpening]; exact startedName?_paramOpening _)
      (startsTag_goOn hlast (not_mem_later hcut hat))
    rwa [trim_undecorated_goOn hlast, unlines_paramOpening hcut,
      Text.trimRight_eq_self (hend _)] at htags

end DocSignature.Tag
