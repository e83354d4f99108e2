import DocSignature.Proofs.ImportRoundTrip

/-!
# Imports of whole modules

An import of a whole module under one name is written on one line. It is read back as this name and
this module when the first brace that the module opens, if there is one, is closed in the module.
When that brace stays open, the tag is refused, although the import itself has no brace.
-/

namespace DocSignature.Tag

open Grammar

/-! ## Braces that close -/

/-- The first opening brace of a text is closed: up to some closing brace behind it, as many braces
are opened as closed. -/
def FirstBraceCloses (cs : List Char) : Prop :=
  ∀ front rest, cs = front ++ '{' :: rest → '{' ∉ front →
    ∃ inside behind, rest = inside ++ '}' :: behind ∧ inside.count '}' = inside.count '{'

/-- An opened brace is closed where all that were opened with it and behind it are. -/
theorem isSome_braceEnd?_iff (cs : List Char) (depth : Nat) :
    (braceEnd? depth cs).isSome = true ↔ ∃ inside behind, cs = inside ++ '}' :: behind ∧
      inside.count '}' = inside.count '{' + depth := by
  induction cs generalizing depth with
  | nil => simp [braceEnd?]
  | cons c cs ih =>
    -- What stands in front of the closing brace is empty, or starts with the first character.
    have hcons : (∃ inside behind, c :: cs = inside ++ '}' :: behind ∧
        inside.count '}' = inside.count '{' + depth) ↔
        (c = '}' ∧ depth = 0) ∨ ∃ inside behind, cs = inside ++ '}' :: behind ∧
          (c :: inside).count '}' = (c :: inside).count '{' + depth := by
      constructor
      · rintro ⟨inside, behind, hsplit, hcount⟩
        cases inside with
        | nil =>
          have hdepth : depth = 0 := by simpa using hcount.symm
          exact .inl ⟨(List.cons.inj hsplit).1, hdepth⟩
        | cons d inside =>
          obtain ⟨rfl, rfl⟩ := List.cons.inj hsplit
          exact .inr ⟨inside, behind, rfl, hcount⟩
      · rintro (⟨rfl, rfl⟩ | ⟨inside, behind, rfl, hcount⟩)
        · exact ⟨[], cs, rfl, rfl⟩
        · exact ⟨c :: inside, behind, rfl, hcount⟩
    rw [hcons]
    unfold braceEnd?
    by_cases hopen : c = '{'
    · subst hopen
      simp [ih, Nat.add_right_comm, Nat.add_assoc]
    · by_cases hclose : c = '}'
      · subst hclose
        cases depth with
        | zero => simp
        | succ depth => simp [ih, ← Nat.add_assoc]
      · simp [hopen, hclose, ih]

theorem bracesClose_split {front : List Char} (hfront : '{' ∉ front) (rest : List Char) :
    bracesClose (front ++ '{' :: rest) = (braceEnd? 0 rest).isSome := by
  rw [bracesClose, Text.dropWhile_of_not_mem hfront]

theorem bracesClose_of_not_mem {cs : List Char} (hcs : '{' ∉ cs) : bracesClose cs = true := by
  have hdrop : cs.dropWhile (· != '{') = [] :=
    List.dropWhile_eq_nil_iff.2 (Text.forall_ne_of_not_mem hcs)
  rw [bracesClose, hdrop]

theorem bracesClose_iff (cs : List Char) : bracesClose cs = true ↔ FirstBraceCloses cs := by
  constructor
  · rintro hclose front rest rfl hfront
    rw [bracesClose_split hfront] at hclose
    exact (isSome_braceEnd?_iff rest 0).1 hclose
  · intro hclose
    by_cases hmem : '{' ∈ cs
    · obtain ⟨front, rest, rfl, hfront⟩ := List.eq_append_cons_of_mem hmem
      rw [bracesClose_split hfront]
      exact (isSome_braceEnd?_iff rest 0).2 (hclose front rest rfl hfront)
    · exact bracesClose_of_not_mem hmem

/-- What closes no brace may be put behind a text. -/
theorem isSome_braceEnd?_append {behind : List Char} (hbehind : '}' ∉ behind) (cs : List Char) :
    (braceEnd? 0 (cs ++ behind)).isSome = (braceEnd? 0 cs).isSome := by
  rw [Bool.eq_iff_iff, isSome_braceEnd?_iff, isSome_braceEnd?_iff]
  constructor
  · rintro ⟨inside, rest, hsplit, hcount⟩
    rcases List.append_eq_append_iff.1 hsplit with ⟨more, rfl, hmore⟩ | ⟨more, rfl, hmore⟩
    · exact absurd (by rw [hmore]; simp) hbehind
    · cases more with
      | nil => exact absurd (by rw [← List.nil_append behind, ← hmore]; simp) hbehind
      | cons c more =>
        obtain ⟨rfl, rfl⟩ := List.cons.inj hmore
        exact ⟨inside, more, rfl, hcount⟩
  · rintro ⟨inside, rest, rfl, hcount⟩
    exact ⟨inside, rest ++ behind, by simp, hcount⟩

/-- Text without braces around another one changes nothing about its braces. -/
theorem bracesClose_around {before behind : List Char} (hbefore : '{' ∉ before)
    (hopen : '{' ∉ behind) (hclose : '}' ∉ behind) (cs : List Char) :
    bracesClose (before ++ (cs ++ behind)) = bracesClose cs := by
  by_cases hmem : '{' ∈ cs
  · obtain ⟨front, rest, rfl, hfront⟩ := List.eq_append_cons_of_mem hmem
    have hsplit : before ++ (front ++ '{' :: rest ++ behind) =
        (before ++ front) ++ '{' :: (rest ++ behind) := by simp
    have hboth : '{' ∉ before ++ front := by simp [hbefore, hfront]
    rw [hsplit, bracesClose_split hboth, bracesClose_split hfront, isSome_braceEnd?_append hclose]
  · rw [bracesClose_of_not_mem hmem, bracesClose_of_not_mem (by simp [hbefore, hmem, hopen])]

/-! ## Reading the import -/

/-- What follows the name of a tag that imports a whole module under a name. -/
def wholeBody (localName : String) (quote : Char) (moduleName : String) : List Char :=
  ' ' :: ("* as ".toList ++ (localName.toList ++ (" from ".toList ++ (quote :: moduleName.toList ++
    [quote]))))

/-- The tag that imports a whole module, in quotes, under a name. -/
def wholeText (localName : String) (quote : Char) (moduleName : String) : List Char :=
  '@' :: ("import".toList ++ wholeBody localName quote moduleName)

section Whole
variable {localName : String} {quote : Char} {moduleName : String}

/-- A star, the word `as` and a name are read as an import of the whole module. -/
theorem gets_whole (base : Loc) (hname : IsIdentifier localName.toList) {rest : List Char}
    (hrest : ∀ c ∈ rest.head?, Text.isPlainNameChar c = false) :
    (importMachine base).Gets .start (' ' :: ("* as ".toList ++ (localName.toList ++ rest)))
      (· = .clauseRead (.whole localName)) rest := by
  have hstar : (importMachine base).Gets .start
      (' ' :: ("* as ".toList ++ (localName.toList ++ rest)))
      (· = .star) (" as ".toList ++ (localName.toList ++ rest)) :=
    Machine.Gets.space (Machine.gets_mark rfl rfl fun _ => rfl)
  have has : (importMachine base).Gets .star (" as ".toList ++ (localName.toList ++ rest))
      (· = .starRenaming) (' ' :: (localName.toList ++ rest)) :=
    Machine.Gets.space (Machine.gets_token rfl ⟨'a', ['s'], rfl, rfl⟩ fun _ => rfl)
  have hfirst : firstOf? ((importMachine base).accepts .starRenaming) (localName.toList ++ rest) =
      some (.name, localName.toList.length) := firstOf?_name hname hrest _
  have hlast : (importMachine base).Gets .starRenaming (' ' :: (localName.toList ++ rest))
      (· = .clauseRead (.whole localName)) rest := by
    refine Machine.Gets.space (Machine.gets_token hfirst (exists_cons_of_isIdentifier hname) ?_)
    intro loc
    simp [importMachine, ImportState.shift]
  refine hstar.trans ?_
  rintro s rfl
  refine has.trans ?_
  rintro s rfl
  exact hlast

theorem run_wholeBody (base : Loc) (hname : IsIdentifier localName.toList)
    (hquote : quote = '"' ∨ quote = '\'') (hfree : quote ∉ moduleName.toList)
    (hline : '\n' ∉ moduleName.toList) :
    (importMachine base).run .start (wholeBody localName quote moduleName) =
      .ok (.whole localName, moduleName) := by
  have hall : (importMachine base).Gets .start (wholeBody localName quote moduleName)
      (· = .complete (.whole localName) moduleName) [] := by
    refine (gets_whole base hname (by simp; decide)).trans ?_
    rintro s rfl
    exact gets_module base hquote hfree hline (.whole localName)
  obtain ⟨s, last, loc, rfl, hrun⟩ := hall .first .first
  exact hrun

/-- Only the module of such an import can have braces. -/
theorem bracesClose_wholeBody (hname : IsIdentifier localName.toList)
    (hquote : quote = '"' ∨ quote = '\'') :
    bracesClose (wholeBody localName quote moduleName) = bracesClose moduleName.toList := by
  have hbefore : '{' ∉ " * as ".toList ++ localName.toList ++ " from ".toList ++ [quote] := by
    have hplain : '{' ∉ localName.toList := hname.not_mem (by decide)
    rcases hquote with rfl | rfl <;> simp [hplain]
  have hbody : wholeBody localName quote moduleName =
      (" * as ".toList ++ localName.toList ++ " from ".toList ++ [quote]) ++
        (moduleName.toList ++ [quote]) := by
    simp [wholeBody]
  rw [hbody, bracesClose_around hbefore]
  · rcases hquote with rfl | rfl <;> simp
  · rcases hquote with rfl | rfl <;> simp

theorem readImport_wholeBody (loc : Loc) (hname : IsIdentifier localName.toList)
    (hquote : quote = '"' ∨ quote = '\'') (hmodule : moduleName ≠ "")
    (hfree : quote ∉ moduleName.toList) (hline : '\n' ∉ moduleName.toList) :
    readImport loc (wholeBody localName quote moduleName) =
      if bracesClose moduleName.toList then .ok (.imports (.whole localName) moduleName)
      else .error ⟨.importUnclosed, loc⟩ := by
  have hannounced : announcesModule (wholeBody localName quote moduleName) = true := by
    rw [wholeBody, ← List.append_assoc, ← List.cons_append]
    exact announcesModule_from hquote _ _
  rw [readImport, bracesClose_wholeBody hname hquote, hannounced,
    run_wholeBody _ hname hquote hfree hline]
  cases bracesClose moduleName.toList <;> simp [hmodule]

theorem line_wholeText (hname : IsIdentifier localName.toList)
    (hquote : quote = '"' ∨ quote = '\'') (hline : '\n' ∉ moduleName.toList) :
    '\n' ∉ wholeText localName quote moduleName := by
  have hplain : '\n' ∉ localName.toList := hname.not_mem (by decide)
  rcases hquote with rfl | rfl <;> simp [wholeText, wholeBody, hplain, hline]

/-- The comment with such an import has one tag, with the text of the import. -/
theorem rawTags_wholeText (loc : Loc) (hname : IsIdentifier localName.toList)
    (hquote : quote = '"' ∨ quote = '\'') (hline : '\n' ∉ moduleName.toList) :
    rawTags loc ("/** ".toList ++ wholeText localName quote moduleName ++ " */".toList) =
      [⟨"import".toList, loc.forward 4, wholeText localName quote moduleName⟩] := by
  have htrimmed : Text.Trimmed (wholeText localName quote moduleName) := by
    have hquoted := trimmed_quoted hquote ("import".toList ++ (" * as ".toList ++
      (localName.toList ++ (" from ".toList ++ quote :: moduleName.toList))))
    simpa [wholeText, wholeBody] using hquoted
  exact rawTags_line loc htrimmed (line_wholeText hname hquote hline) (startedName?_import _)

/-- The tag that is read when the braces of the module do close. -/
theorem read_wholeText (file : Option String) (loc : Loc) (hname : IsIdentifier localName.toList)
    (hquote : quote = '"' ∨ quote = '\'') (hmodule : moduleName ≠ "")
    (hfree : quote ∉ moduleName.toList) (hline : '\n' ∉ moduleName.toList)
    (hclose : FirstBraceCloses moduleName.toList) :
    read file ⟨"import".toList, loc, wholeText localName quote moduleName⟩ =
      (⟨loc, String.ofList (wholeText localName quote moduleName),
        .imports (.whole localName) moduleName⟩, []) := by
  have hbody : readBody ⟨"import".toList, loc, wholeText localName quote moduleName⟩ =
      .ok (.imports (.whole localName) moduleName) := by
    rw [wholeText, readBody_import, readImport_wholeBody loc hname hquote hmodule hfree hline,
      if_pos ((bracesClose_iff _).2 hclose)]
  simp only [read, hbody]

/-- The diagnostic about an import with an open brace. -/
def unclosedDiagnostic (file : Option String) (loc : Loc) : Diagnostic :=
  { kind := .malformedTag, message := "@import is missing a closing brace", phase := some .parser,
    span := Span.ofLoc loc file }

/-- The tag that is read when the first brace of the module stays open. -/
theorem read_open_wholeText (file : Option String) (loc : Loc)
    (hname : IsIdentifier localName.toList) (hquote : quote = '"' ∨ quote = '\'')
    (hmodule : moduleName ≠ "") (hfree : quote ∉ moduleName.toList)
    (hline : '\n' ∉ moduleName.toList) (hopen : ¬FirstBraceCloses moduleName.toList) :
    read file ⟨"import".toList, loc, wholeText localName quote moduleName⟩ =
      (⟨loc, String.ofList (wholeText localName quote moduleName), .other "import"⟩,
        [unclosedDiagnostic file loc]) := by
  have hbody : readBody ⟨"import".toList, loc, wholeText localName quote moduleName⟩ =
      .error ⟨.importUnclosed, loc⟩ := by
    rw [wholeText, readBody_import, readImport_wholeBody loc hname hquote hmodule hfree hline,
      if_neg (mt (bracesClose_iff _).1 hopen)]
  simp only [read, hbody]
  rfl

end Whole

/-- An import of a whole module is read back as its name and its module, and nothing is said about
it, when the first brace of the module is closed or there is none. Otherwise the tag is kept without
a meaning and reported for a brace that is not closed. Both hold of the tag wherever it stands, and
of the comment that has no other tag. -/
theorem wholeText_is_read_back_iff (file : Option String) (localName : String) (quote : Char)
    (moduleName : String) (hname : IsIdentifier localName.toList)
    (hquote : quote = '"' ∨ quote = '\'') (hmodule : moduleName ≠ "")
    (hfree : quote ∉ moduleName.toList) (hline : '\n' ∉ moduleName.toList) :
    (FirstBraceCloses moduleName.toList → ∀ loc,
      (∃ tag, tag.body = .imports (.whole localName) moduleName ∧
        read file ⟨"import".toList, loc, wholeText localName quote moduleName⟩ = (tag, [])) ∧
      ∃ tag, tag.body = .imports (.whole localName) moduleName ∧
        readAll file loc ("/** ".toList ++ wholeText localName quote moduleName ++ " */".toList) =
          ([tag], [])) ∧
    (¬FirstBraceCloses moduleName.toList → ∀ loc,
      (∃ tag, tag.body = .other "import" ∧
        read file ⟨"import".toList, loc, wholeText localName quote moduleName⟩ =
          (tag, [unclosedDiagnostic file loc])) ∧
      ∃ tag, tag.body = .other "import" ∧
        readAll file loc ("/** ".toList ++ wholeText localName quote moduleName ++ " */".toList) =
          ([tag], [unclosedDiagnostic file (loc.forward 4)])) := by
  have hcomment (loc : Loc) := readAll_single file
    (@rawTags_wholeText localName quote moduleName loc hname hquote hline)
  constructor
  · intro hclose loc
    have hread := fun loc => read_wholeText file loc hname hquote hmodule hfree hline hclose
    exact ⟨⟨_, rfl, hread loc⟩, _, rfl, by rw [hcomment, hread]⟩
  · intro hopen loc
    have hread := fun loc => read_open_wholeText file loc hname hquote hmodule hfree hline hopen
    exact ⟨⟨_, rfl, hread loc⟩, _, rfl, by rw [hcomment, hread]⟩

/-- A module may close more braces than it opens, and a name may be the word `as`. -/
theorem wholeText_of_closed_braces_is_read_back :
    let moduleName := "./\x7bid\x7d/\x7d from \"x"
    wholeText "as" '\'' moduleName =
      "@import * as as from './\x7bid\x7d/\x7d from \"x'".toList ∧
    FirstBraceCloses moduleName.toList ∧
    ∃ tag, tag.body = .imports (.whole "as") moduleName ∧
      readAll none .first ("/** ".toList ++ wholeText "as" '\'' moduleName ++ " */".toList) =
        ([tag], []) := by
  intro moduleName
  have hclose : FirstBraceCloses moduleName.toList := (bracesClose_iff _).1 (by decide +kernel)
  exact ⟨by decide +kernel, hclose, ((wholeText_is_read_back_iff none "as" '\'' moduleName
    (by decide +kernel) (.inr rfl) (by decide) (by decide +kernel) (by decide +kernel)).1 hclose
      .first).2⟩

/-- A module that opens a brace and leaves it open cannot be imported as a whole. -/
theorem wholeText_of_open_brace_is_refused :
    let moduleName := "./\x7bid"
    (IsIdentifier "a".toList ∧ moduleName ≠ "" ∧ '"' ∉ moduleName.toList ∧
      '\n' ∉ moduleName.toList) ∧
    ¬∃ tag, tag.body = .imports (.whole "a") moduleName ∧
      readAll none .first ("/** ".toList ++ wholeText "a" '"' moduleName ++ " */".toList) =
        ([tag], []) := by
  intro moduleName
  have hname : IsIdentifier "a".toList := by decide +kernel
  have hmodule : moduleName ≠ "" := by decide
  have hfree : '"' ∉ moduleName.toList := by decide +kernel
  have hline : '\n' ∉ moduleName.toList := by decide +kernel
  have hopen : ¬FirstBraceCloses moduleName.toList :=
    mt (bracesClose_iff _).2 (by decide +kernel)
  have hreported := congrArg Prod.snd
    (read_open_wholeText none (Loc.first.forward 4) hname (.inl rfl) hmodule hfree hline hopen)
  refine ⟨⟨hname, hmodule, hfree, hline⟩, ?_⟩
  rintro ⟨tag, -, hread⟩
  have hnone := congrArg Prod.snd ((readAll_single none
    (rawTags_wholeText .first hname (.inl rfl) hline)).symm.trans hread)
  exact List.cons_ne_nil _ _ (hreported.symm.trans hnone)

end DocSignature.Tag
