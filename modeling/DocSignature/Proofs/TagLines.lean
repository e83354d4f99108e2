import DocSignature.Proofs.CommentLine
import Mathlib.Data.List.Forall2

/-!
# The lines of tags

What a comment says line by line, and which of the lines make up its tags: a tag starts on each line
that starts with `@` and a letter, and goes on down to the next one.
-/

namespace DocSignature.Text

/-- Behind the first of some lines comes a line feed or nothing. -/
theorem exists_unlines_cons (line : List Char) (ls : List (List Char)) :
    ∃ rest, unlines (line :: ls) = line ++ rest ∧ ∀ c ∈ rest.head?, c = '\n' := by
  cases ls with
  | nil => exact ⟨[], by simp [unlines], by simp⟩
  | cons second ls => exact ⟨_, unlines_cons_cons line second ls, by simp⟩

end DocSignature.Text

namespace DocSignature.Tag

/-! ## What a comment says -/

/-- How a later line of a comment loses its decoration: a star that no slash follows, the blanks
before it and one blank behind it. -/
inductive Bared : (line bare : List Char) → Prop where
  | star {blanks rest : List Char} (hblanks : Text.allBlank blanks = true)
      (hrest : ∀ c ∈ rest.head?, c ≠ '/' ∧ Text.isBlank c = false) :
      Bared (blanks ++ '*' :: rest) rest
  | starBlank {blanks rest : List Char} {c : Char} (hblanks : Text.allBlank blanks = true)
      (hc : Text.isBlank c = true) : Bared (blanks ++ '*' :: c :: rest) rest
  | plain {line : List Char} (hline : ∀ blanks rest, Text.allBlank blanks = true →
      line = blanks ++ '*' :: rest → rest.head? = some '/') : Bared line line

theorem trimLeft_star {blanks : List Char} (h : Text.allBlank blanks = true) (rest : List Char) :
    Text.trimLeft (blanks ++ '*' :: rest) = '*' :: rest := by
  rw [Text.trimLeft_append (List.all_eq_true.1 h)]
  exact Text.trimLeft_eq_self (by simp [show Text.isBlank '*' = false by decide])

theorem bared_undecorated (line : List Char) : Bared line (undecorated line) := by
  have hline : line = line.takeWhile Text.isBlank ++ Text.trimLeft line :=
    List.takeWhile_append_dropWhile.symm
  have hblanks : Text.allBlank (line.takeWhile Text.isBlank) = true :=
    List.all_eq_true.2 fun c hc => List.mem_takeWhile_imp hc
  -- a star behind blanks is what the line starts with
  have hunique {blanks rest : List Char} (hb : Text.allBlank blanks = true)
      (heq : line = blanks ++ '*' :: rest) : Text.trimLeft line = '*' :: rest := by
    rw [heq, trimLeft_star hb]
  unfold undecorated
  split
  · rename_i rest hstar
    rw [hstar] at hline
    split
    · refine .plain fun blanks rest hb heq => ?_
      have hsame := hunique hb heq
      rw [hstar] at hsame
      cases hsame
      rfl
    · rename_i c more hslash
      split
      · rename_i hc
        conv => arg 1; rw [hline]
        exact .starBlank hblanks hc
      · rename_i hc
        conv => arg 1; rw [hline]
        refine .star hblanks ?_
        rintro d hd
        cases hd
        exact ⟨fun heq => hslash (by rw [heq]), by simpa using hc⟩
    · conv => arg 1; rw [hline]
      exact .star hblanks (by simp)
  · rename_i hstar
    refine .plain fun blanks rest hb heq => ?_
    exact absurd (hunique hb heq) (hstar rest)

/-- The text of a comment between its marks. -/
def bodyOf (text : List Char) : List Char :=
  (text.drop 3).take (text.length - 5)

theorem exists_lines_bodyOf (text : List Char) :
    ∃ first later, Text.lines (bodyOf text) = first :: later :=
  List.exists_cons_of_ne_nil (TypeExpr.cut_ne_nil '\n' (bodyOf text))

/-- What a comment says line by line: its first line as it is and the later ones without their
decoration, all without the blanks around them. -/
def Says (text : List Char) (said : List (List Char)) : Prop :=
  ∃ first later bared, Text.lines (bodyOf text) = first :: later ∧ List.Forall₂ Bared later bared ∧
    said = (first :: bared).map Text.trim

theorem texts_laterLines (n : Nat) (ls : List (List Char)) :
    (laterLines n ls).map (·.text) = (ls.map undecorated).map Text.trim := by
  induction ls generalizing n with
  | nil => rfl
  | cons line ls ih =>
    rw [laterLines, List.map_cons, ih]
    rfl

theorem bodyLines_eq {text first : List Char} {later : List (List Char)}
    (h : Text.lines (bodyOf text) = first :: later) (loc : Loc) :
    bodyLines loc text = lineAt (loc.forward 3) first first :: laterLines (loc.line + 1) later := by
  unfold bodyLines
  rw [show Text.lines ((text.drop 3).take (text.length - 5)) = first :: later from h]

theorem says_bodyLines (loc : Loc) (text : List Char) :
    Says text ((bodyLines loc text).map (·.text)) := by
  obtain ⟨first, later, hcut⟩ := exists_lines_bodyOf text
  refine ⟨first, later, later.map undecorated, hcut, ?_, ?_⟩
  · exact List.forall₂_map_right_iff.2 (List.forall₂_same.2 fun line _ => bared_undecorated line)
  · rw [bodyLines_eq hcut, List.map_cons, texts_laterLines]
    rfl

/-- The lines of a comment are counted down from where it starts. -/
theorem line_of_bodyLines {loc : Loc} {text : List Char} {i : Nat} {l : Line}
    (h : (bodyLines loc text)[i]? = some l) : l.loc.line = loc.line + i := by
  obtain ⟨first, later, hcut⟩ := exists_lines_bodyOf text
  rw [bodyLines_eq hcut] at h
  cases i with
  | zero =>
    cases h
    rfl
  | succ i =>
    rw [List.getElem?_cons_succ, getElem?_laterLines] at h
    obtain ⟨line, -, rfl⟩ := Option.map_eq_some_iff.1 h
    exact Nat.add_right_comm loc.line 1 i

/-! ## Lines that start tags -/

/-- Holds of a line that starts a tag: with an `@` and a letter. -/
def startsTag : List Char → Bool
  | '@' :: c :: _ => Text.isAsciiLetter c
  | _ => false

theorem isSome_startedName? (line : List Char) : (startedName? line).isSome = startsTag line := by
  unfold startedName?
  split
  · rename_i c cs
    simp only [startsTag]
    split <;> simp_all
  · rename_i hline
    cases hstarts : startsTag line with
    | false => rfl
    | true =>
      unfold startsTag at hstarts
      split at hstarts
      · exact absurd rfl (hline _ _)
      · cases hstarts

/-- The positions of the lines that start tags. -/
def tagStarts (said : List (List Char)) : List Nat :=
  (List.range said.length).filter fun i => startsTag (said.getD i [])

/-- A line and the lines below it, down to the next one that starts a tag. -/
def blockAt (said : List (List Char)) (i : Nat) : List (List Char) :=
  match said.drop i with
  | [] => []
  | line :: rest => line :: rest.takeWhile (!startsTag ·)

theorem tagStarts_cons (line : List Char) (said : List (List Char)) :
    tagStarts (line :: said) =
      (if startsTag line then [0] else []) ++ (tagStarts said).map (· + 1) := by
  rw [tagStarts, List.length_cons, List.range_succ_eq_map, List.filter_cons, List.filter_map]
  cases hline : startsTag line with
  | true => simp [hline, tagStarts, Function.comp_def]
  | false => simp [hline, tagStarts, Function.comp_def]

/-- A tag before it is read that starts on the line at position `i`. -/
structure Raw.StartsAt (ls : List Line) (i : Nat) (raw : Raw) : Prop where
  line : ∃ l, ls[i]? = some l ∧ raw.loc = l.loc ∧ startedName? l.text = some raw.name
  text : raw.text = Text.trimRight (Text.unlines (blockAt (ls.map (·.text)) i))

/-- There is one tag for each line that starts one. -/
theorem startsAt_gather (ls : List Line) :
    List.Forall₂ (Raw.StartsAt ls) (tagStarts (ls.map (·.text))) (gather ls) := by
  induction ls with
  | nil => exact .nil
  | cons line ls ih =>
    have later : List.Forall₂ (Raw.StartsAt (line :: ls))
        ((tagStarts (ls.map (·.text))).map (· + 1)) (gather ls) := by
      refine List.forall₂_map_left_iff.2 (ih.imp fun i raw hraw => ?_)
      obtain ⟨⟨l, hl, hstart⟩, htext⟩ := hraw
      exact ⟨⟨l, by simpa using hl, hstart⟩, by simpa [blockAt] using htext⟩
    have hstarts := isSome_startedName? line.text
    rw [List.map_cons, tagStarts_cons, ← hstarts, gather]
    cases hname : startedName? line.text with
    | none => exact later
    | some name =>
      refine .cons ⟨⟨line, rfl, rfl, hname⟩, ?_⟩ later
      have hnone (l : Line) : (startedName? l.text).isNone = !startsTag l.text := by
        rw [← isSome_startedName?, Option.not_isSome]
      simp only [hnone, blockAt, List.map_cons, List.drop_zero, List.takeWhile_map,
        Function.comp_def]

theorem exists_startsAt_of_mem_gather {ls : List Line} {raw : Raw} (h : raw ∈ gather ls) :
    ∃ i, raw.StartsAt ls i := by
  have hall := startsAt_gather ls
  obtain ⟨n, hn, rfl⟩ := List.mem_iff_getElem.1 h
  exact ⟨_, hall.get (hall.length_eq ▸ hn) hn⟩

theorem blockAt_of_getElem? {said : List (List Char)} {i : Nat} {line : List Char}
    (h : said[i]? = some line) :
    blockAt said i = line :: (said.drop (i + 1)).takeWhile (!startsTag ·) := by
  obtain ⟨hi, rfl⟩ := List.getElem?_eq_some_iff.1 h
  rw [blockAt, List.drop_eq_getElem_cons hi]

/-- The lines of a tag are the first ones from where it starts. -/
theorem prefix_blockAt (said : List (List Char)) (i : Nat) : blockAt said i <+: said.drop i := by
  unfold blockAt
  split
  · exact List.nil_prefix
  · rename_i line rest hdrop
    rw [hdrop]
    exact List.cons_prefix_cons.2 ⟨rfl, List.takeWhile_prefix _⟩

/-! ## The name of a tag -/

/-- What follows on later lines does not change the name that a line starts. -/
theorem startedName?_append {line rest name : List Char} (h : startedName? line = some name)
    (hrest : ∀ c ∈ rest.head?, c = '\n') : startedName? (line ++ rest) = some name := by
  unfold startedName? at h
  split at h
  · rename_i c cs
    split at h
    · rename_i hletter
      cases h
      have hnone : rest.takeWhile (fun d => Text.isWordChar d || d == '-') = [] := by
        cases rest with
        | nil => rfl
        | cons d rest =>
          obtain rfl := hrest d rfl
          exact List.takeWhile_cons_of_neg (by decide)
      simp only [List.cons_append, startedName?, hletter, if_true, List.takeWhile_append, hnone]
      split
      · rename_i hlength
        rw [(List.takeWhile_prefix _).eq_of_length hlength, List.append_nil]
      · rfl
    · cases h
  · cases h

/-- The text of a tag starts its name. -/
theorem startedName?_of_mem_rawTags {loc : Loc} {text : List Char} {raw : Raw}
    (h : raw ∈ rawTags loc text) : startedName? raw.text = some raw.name := by
  obtain ⟨i, ⟨l, hl, -, hname⟩, htext⟩ := exists_startsAt_of_mem_gather h
  have hsaid : ((bodyLines loc text).map (·.text))[i]? = some l.text := by
    rw [List.getElem?_map, hl]
    rfl
  have hlast : ∀ c ∈ l.text.getLast?, Text.isBlank c = false := by
    obtain ⟨first, later, bared, -, -, hlines⟩ := says_bodyLines loc text
    rw [hlines] at hsaid
    obtain ⟨line, -, hline⟩ := List.mem_map.1 (List.mem_of_getElem? hsaid)
    rw [← hline]
    exact Text.last_trimRight _
  rw [htext, blockAt_of_getElem? hsaid]
  obtain ⟨rest, hrest, hhead⟩ := Text.exists_unlines_cons l.text
    (((bodyLines loc text).map (·.text)).drop (i + 1) |>.takeWhile (!startsTag ·))
  rw [hrest, Text.trimRight_append hlast]
  apply startedName?_append hname
  intro c hc
  obtain ⟨more, hmore⟩ := Text.trimRight_prefix rest
  apply hhead
  rw [← hmore, List.head?_append, Option.mem_def.1 hc]
  rfl

/-- A tag is given by its place and its text. -/
theorem eq_of_mem_rawTags {loc loc' : Loc} {text text' : List Char} {raw raw' : Raw}
    (h : raw ∈ rawTags loc text) (h' : raw' ∈ rawTags loc' text') (hloc : raw.loc = raw'.loc)
    (htext : raw.text = raw'.text) : raw = raw' := by
  have hname := startedName?_of_mem_rawTags h
  rw [htext, startedName?_of_mem_rawTags h', Option.some.injEq] at hname
  obtain ⟨name, place, body⟩ := raw
  cases hname
  cases hloc
  cases htext
  rfl

end DocSignature.Tag
