import DocSignature.Proofs.ImportRoundTrip

/-!
# The words of an import

Cut into maximal runs of name characters, an import that was read shows each of its names: alone,
or with the word `as` between the imported and the local name. The word `as` need not end where it
is read, so it may also be the beginning of the run that goes on with the local name.
-/

namespace DocSignature

/-! ## Runs of name characters -/

namespace Text

/-- The longest runs of name characters of a text, in order. -/
def nameRuns (cs : List Char) : List (List Char) :=
  (cs.splitOnP fun c => !isPlainNameChar c).filter fun run => !run.isEmpty

theorem nameRuns_split {c : Char} (hc : isPlainNameChar c = false) (front rest : List Char) :
    nameRuns (front ++ c :: rest) = nameRuns front ++ nameRuns rest := by
  unfold nameRuns
  rw [List.splitOnP_append_cons front rest (by simp [hc]), List.filter_append]

theorem nameRuns_of_plain {run : List Char} (hne : run ≠ [])
    (hrun : ∀ c ∈ run, isPlainNameChar c = true) : nameRuns run = [run] := by
  unfold nameRuns
  rw [List.splitOnP_eq_singleton fun c hc => by simp [hrun c hc]]
  simp [hne]

theorem nameRuns_of_noName {cs : List Char} (hcs : ∀ c ∈ cs, isPlainNameChar c = false) :
    nameRuns cs = [] := by
  induction cs with
  | nil => rfl
  | cons c cs ih =>
    have hsplit := nameRuns_split (hcs c (by simp)) [] cs
    rw [List.nil_append] at hsplit
    rw [hsplit, ih fun d hd => hcs d (by simp [hd])]
    rfl

/-- No run goes over the border between two texts. -/
def Parted (front rest : List Char) : Prop :=
  (∀ c ∈ front.getLast?, isPlainNameChar c = false) ∨ ∀ c ∈ rest.head?, isPlainNameChar c = false

theorem nameRuns_append {front rest : List Char} (h : Parted front rest) :
    nameRuns (front ++ rest) = nameRuns front ++ nameRuns rest := by
  have hnil : nameRuns [] = [] := rfl
  rcases h with hfront | hrest
  · rcases List.eq_nil_or_concat front with rfl | ⟨front, c, rfl⟩
    · rfl
    · have hc : isPlainNameChar c = false := hfront c (by simp)
      rw [List.concat_eq_append, List.append_assoc, List.singleton_append, nameRuns_split hc,
        nameRuns_split hc, hnil, List.append_nil]
  · cases rest with
    | nil => rw [hnil, List.append_nil, List.append_nil]
    | cons c rest =>
      have hc : isPlainNameChar c = false := hrest c rfl
      have hsplit := nameRuns_split hc [] rest
      rw [List.nil_append, hnil, List.nil_append] at hsplit
      rw [nameRuns_split hc, hsplit]

end Text

/-! ## What a machine has read -/

namespace Grammar

theorem exists_of_markSize? {mark : Char} {cs : List Char} {size : Nat}
    (h : markSize? mark cs = some size) : ∃ rest, cs = [mark] ++ rest ∧ [mark].length = size := by
  unfold markSize? at h
  split at h
  · rename_i c rest
    split at h
    · rename_i hc
      cases h
      exact ⟨rest, by rw [hc]; rfl, rfl⟩
    · cases h
  · cases h

theorem exists_of_wordSize? {word : String} {cs : List Char} {size : Nat}
    (h : wordSize? word cs = some size) :
    ∃ rest, cs = word.toList ++ rest ∧ word.toList.length = size := by
  unfold wordSize? at h
  split at h
  · rename_i hword
    cases h
    obtain ⟨rest, hrest⟩ := List.isPrefixOf_iff_prefix.1 hword
    exact ⟨rest, hrest.symm, String.length_toList⟩
  · cases h

/-- A name goes on as long as there are name characters. -/
theorem exists_of_nameSize? {cs : List Char} {size : Nat} (h : nameSize? cs = some size) :
    ∃ name rest, cs = name ++ rest ∧ name.length = size ∧ IsIdentifier name ∧
      ∀ c ∈ rest.head?, Text.isPlainNameChar c = false := by
  unfold nameSize? at h
  split at h
  · rename_i c cs
    split at h
    · rename_i hc
      cases h
      refine ⟨c :: cs.takeWhile Text.isPlainNameChar, cs.dropWhile Text.isPlainNameChar, ?_, ?_,
        ⟨c, _, rfl, hc, fun d hd => List.mem_takeWhile_imp hd⟩, ?_⟩
      · rw [List.cons_append, List.takeWhile_append_dropWhile]
      · rw [List.length_cons, Nat.add_comm]
      · intro d hd
        have := List.head?_dropWhile_not Text.isPlainNameChar cs
        rw [hd] at this
        simpa using this
    · cases h
  · cases h

theorem exists_of_stringSize? {cs : List Char} {size : Nat} (h : stringSize? cs = some size) :
    ∃ quote text rest, (quote = '"' ∨ quote = '\'') ∧
      cs = (quote :: text ++ [quote]) ++ rest ∧ (quote :: text ++ [quote]).length = size := by
  unfold stringSize? at h
  split at h
  · rename_i quote cs
    split at h
    · rename_i hquote
      simp only at h
      split at h
      · rename_i hclose
        cases h
        obtain ⟨rest, hrest⟩ := List.head?_eq_some_iff.1 hclose
        have hsplit := Header.append_drop_takeWhile (fun c => c != quote && c != '\n') cs
        rw [hrest] at hsplit
        refine ⟨quote, cs.takeWhile fun c => c != quote && c != '\n', rest, by simpa using hquote,
          ?_, by simp⟩
        rw [List.cons_append, List.cons_append, List.append_assoc, List.singleton_append, hsplit]
      · cases h
    · cases h
  · cases h

variable {σ ρ : Type} (m : Machine σ ρ) {Inv : List Char → σ → List Char → Prop}

/-- A relation between what is read, the state and what is still to be read that is kept by blanks
and by accepted tokens. -/
structure Machine.Keeps (Inv : List Char → σ → List Char → Prop) : Prop where
  space : ∀ front s c rest, Inv front s (c :: rest) → isSpace c = true → Inv (front ++ [c]) s rest
  token : ∀ front s cs terminal size loc, Inv front s cs → terminal ∈ m.accepts s →
    terminal.size? cs = some size → ∃ text rest, cs = text ++ rest ∧ text.length = size ∧
      text ≠ [] ∧ Inv (front ++ text) (m.shift s ⟨terminal, text, loc⟩) rest

theorem Machine.Keeps.runFrom (hkeeps : m.Keeps Inv) {r : ρ} (cs : List Char) :
    ∀ (front : List Char) (state : σ) (last loc : Loc) (skip : Nat),
      Inv (front ++ cs.take skip) state (cs.drop skip) →
      m.runFrom state last loc skip cs = .ok r →
      ∃ s, Inv (front ++ cs) s [] ∧ m.result s = some r := by
  induction cs with
  | nil =>
    intro front state last loc skip hinv h
    unfold Machine.runFrom at h
    split at h
    · rename_i result hresult
      cases h
      exact ⟨state, by simpa using hinv, hresult⟩
    · cases h
  | cons c cs ih =>
    intro front state last loc skip hinv h
    rw [← List.singleton_append, ← List.append_assoc]
    cases skip with
    | succ skip => exact ih _ _ _ _ skip (by simpa using hinv) h
    | zero =>
      rw [List.take_zero, List.append_nil, List.drop_zero] at hinv
      unfold Machine.runFrom at h
      split at h
      · rename_i hspace
        exact ih _ _ _ _ 0 (by simpa using hkeeps.space _ _ _ _ hinv hspace) h
      · split at h
        · rename_i terminal size hfirst
          obtain ⟨hmem, hsize⟩ := firstOf?_eq_some hfirst
          obtain ⟨text, rest, hsplit, rfl, hne, htoken⟩ :=
            hkeeps.token _ _ _ _ _ loc hinv hmem hsize
          obtain ⟨d, text, rfl⟩ := List.exists_cons_of_ne_nil hne
          obtain ⟨rfl, rfl⟩ := List.cons.inj hsplit
          refine ih _ _ _ _ _ ?_ h
          simpa using htoken
        · cases h

/-- What is kept holds in the end, in a state that gives the result, of all that was read. -/
theorem Machine.Keeps.run (hkeeps : m.Keeps Inv) {start : σ} {cs : List Char} {r : ρ}
    (hstart : Inv [] start cs) (h : m.run start cs = .ok r) :
    ∃ s, Inv cs s [] ∧ m.result s = some r :=
  hkeeps.runFrom m cs [] start .first .first 0 (by simpa using hstart) h

end Grammar

namespace Tag

open Grammar

/-! ## How names are spelled -/

/-- Holds of all characters but the two quotes that a module may stand in. -/
def isUnquoted (c : Char) : Bool :=
  c != '"' && c != '\''

/-- Characters of a kind that the quotes are not of. -/
theorem isUnquoted_of_kind {kind : Char → Bool} (hdouble : kind '"' = false)
    (hsingle : kind '\'' = false) {c : Char} (hc : kind c = true) : isUnquoted c = true := by
  have hne : c ≠ '"' ∧ c ≠ '\'' := by
    constructor
    · rintro rfl
      exact absurd hc (by simp [hdouble])
    · rintro rfl
      exact absurd hc (by simp [hsingle])
  simp [isUnquoted, hne]

/-- The text of an import in front of its module. -/
def clauseText (body : List Char) : List Char :=
  body.takeWhile isUnquoted

/-- What stands between the braces of an import. -/
def listText (clause : List Char) : List Char :=
  ((clause.dropWhile (· != '{')).drop 1).takeWhile (· != '}')

/-- The runs of each item in a list, items without a name left out. -/
def itemRuns (list : List Char) : List (List (List Char)) :=
  ((list.splitOnP (· == ',')).map Text.nameRuns).filter fun runs => !runs.isEmpty

/-- A name is spelled in whole words: alone, or with the word `as` and the local name. -/
def InWords (s : Specifier) (runs : List (List Char)) : Prop :=
  (runs = [s.imported.toList] ∧ s.localName = s.imported) ∨
    runs = [s.imported.toList, "as".toList, s.localName.toList]

/-- A name is spelled with a word `as` that goes on with the local name. -/
def Joined (s : Specifier) (runs : List (List Char)) : Prop :=
  runs = [s.imported.toList, "as".toList ++ s.localName.toList]

/-- A name is spelled in one of these ways. -/
def Spelled (s : Specifier) (runs : List (List Char)) : Prop :=
  InWords s runs ∨ Joined s runs

theorem Spelled.ne_nil {s : Specifier} {runs : List (List Char)} (h : Spelled s runs) :
    runs ≠ [] := by
  rcases h with (⟨rfl, -⟩ | rfl) | rfl <;> simp

theorem itemRuns_comma (front rest : List Char) :
    itemRuns (front ++ ',' :: rest) = itemRuns front ++ itemRuns rest := by
  unfold itemRuns
  rw [List.splitOnP_append_cons front rest (by rfl), List.map_append, List.filter_append]

theorem itemRuns_item {item : List Char} (hitem : ',' ∉ item) :
    itemRuns item = [Text.nameRuns item].filter fun runs => !runs.isEmpty := by
  unfold itemRuns
  rw [List.splitOnP_eq_singleton]
  · rfl
  · intro c hc
    simpa using fun heq : c = ',' => hitem (heq ▸ hc)

/-! ## Tokens of an import -/

/-- The terminals of imports that have one text. -/
def fixedTexts : List (Terminal × List Char) :=
  [(.leftBrace, ['{']), (.rightBrace, ['}']), (.comma, [',']), (.star, ['*']),
    (.asWord, ['a', 's']), (.fromWord, ['f', 'r', 'o', 'm'])]

/-- What a terminal of imports takes off a text, and what then follows. -/
def Takes (terminal : Terminal) (text rest : List Char) : Prop :=
  (terminal, text) ∈ fixedTexts ∨
  (terminal = .name ∧ IsIdentifier text ∧ ∀ c ∈ rest.head?, Text.isPlainNameChar c = false) ∨
  (terminal = .string ∧ ∃ quote inner, (quote = '"' ∨ quote = '\'') ∧
    text = quote :: inner ++ [quote])

theorem exists_takes {s : ImportState} {terminal : Terminal} (hmem : terminal ∈ s.accepts)
    {cs : List Char} {size : Nat} (h : terminal.size? cs = some size) :
    ∃ text rest, cs = text ++ rest ∧ text.length = size ∧ Takes terminal text rest := by
  have haccepts : s.accepts ⊆ [.leftBrace, .rightBrace, .comma, .star, .asWord, .fromWord, .name,
      .string] := by
    cases s <;> simp [ImportState.accepts]
  have hmark {mark : Char} (hfixed : (terminal, [mark]) ∈ fixedTexts)
      (h : markSize? mark cs = some size) :
      ∃ text rest, cs = text ++ rest ∧ text.length = size ∧ Takes terminal text rest := by
    obtain ⟨rest, hcs, hsize⟩ := exists_of_markSize? h
    exact ⟨[mark], rest, hcs, hsize, .inl hfixed⟩
  have hword {word : String} (hfixed : (terminal, word.toList) ∈ fixedTexts)
      (h : wordSize? word cs = some size) :
      ∃ text rest, cs = text ++ rest ∧ text.length = size ∧ Takes terminal text rest := by
    obtain ⟨rest, hcs, hsize⟩ := exists_of_wordSize? h
    exact ⟨word.toList, rest, hcs, hsize, .inl hfixed⟩
  have hterminal := haccepts hmem
  simp only [List.mem_cons, List.not_mem_nil, or_false] at hterminal
  rcases hterminal with rfl | rfl | rfl | rfl | rfl | rfl | rfl | rfl
  · exact hmark (by simp [fixedTexts]) h
  · exact hmark (by simp [fixedTexts]) h
  · exact hmark (by simp [fixedTexts]) h
  · exact hmark (by simp [fixedTexts]) h
  · exact hword (by simp [fixedTexts]) h
  · exact hword (by simp [fixedTexts]) h
  · obtain ⟨name, rest, hcs, hsize, hname⟩ := exists_of_nameSize? h
    exact ⟨name, rest, hcs, hsize, .inr (.inl ⟨rfl, hname⟩)⟩
  · obtain ⟨quote, text, rest, hquote, hcs, hsize⟩ := exists_of_stringSize? h
    exact ⟨_, rest, hcs, hsize, .inr (.inr ⟨rfl, quote, text, hquote, rfl⟩)⟩

section Takes
variable {terminal : Terminal} {text rest : List Char}

theorem Takes.ne_nil (h : Takes terminal text rest) : text ≠ [] := by
  rcases h with hfixed | ⟨-, hname, -⟩ | ⟨-, quote, inner, -, rfl⟩
  · have hall : ∀ p ∈ fixedTexts, p.2 ≠ [] := by decide
    exact hall _ hfixed
  · exact hname.ne_nil
  · simp

/-- Only a module has quotes. -/
theorem Takes.unquoted (h : Takes terminal text rest) (hterminal : terminal ≠ .string) :
    ∀ c ∈ text, isUnquoted c = true := by
  rcases h with hfixed | ⟨-, hname, -⟩ | ⟨hstring, -⟩
  · have hall : fixedTexts.all (fun p => p.2.all isUnquoted) = true := by decide
    exact List.all_eq_true.1 (List.all_eq_true.1 hall _ hfixed)
  · intro c hc
    exact isUnquoted_of_kind (by decide) (by decide) (hname.plain c hc)
  · exact absurd hstring hterminal

theorem Takes.eq_of_fixed {fixed : List Char} (h : Takes terminal text rest)
    (hfixed : fixedTexts.lookup terminal = some fixed) : text = fixed := by
  rcases h with hmem | ⟨rfl, -⟩ | ⟨rfl, -⟩
  · have hall : ∀ p ∈ fixedTexts, fixedTexts.lookup p.1 = some p.2 := by decide
    have htext := hall _ hmem
    rw [hfixed] at htext
    exact (Option.some.inj htext).symm
  · cases hfixed
  · cases hfixed

theorem Takes.name (h : Takes .name text rest) :
    IsIdentifier text ∧ ∀ c ∈ rest.head?, Text.isPlainNameChar c = false := by
  rcases h with hmem | ⟨-, hname⟩ | ⟨hstring, -⟩
  · have hall : ∀ p ∈ fixedTexts, p.1 ≠ .name := by decide
    exact absurd rfl (hall _ hmem)
  · exact hname
  · cases hstring

theorem Takes.string (h : Takes .string text rest) :
    ∃ quote inner, (quote = '"' ∨ quote = '\'') ∧ text = quote :: inner ++ [quote] := by
  rcases h with hmem | ⟨hname, -⟩ | ⟨-, hstring⟩
  · have hall : ∀ p ∈ fixedTexts, p.1 ≠ .string := by decide
    exact absurd rfl (hall _ hmem)
  · cases hname
  · exact hstring

end Takes

/-! ## Lists of names -/

/-- A list that is still open: the names in front of its last comma are spelled, and `item` stands
behind that comma. -/
def OpenList (items : List Specifier) (item front : List Char) : Prop :=
  ∃ before done, front = before ++ '{' :: (done ++ item) ∧ '{' ∉ before ∧ '}' ∉ done ++ item ∧
    ',' ∉ item ∧ (∀ more, itemRuns (done ++ more) = itemRuns done ++ itemRuns more) ∧
    List.Forall₂ Spelled items (itemRuns done)

/-- A list that is closed, whatever stands behind it. -/
def ClosedList (items : List Specifier) (front : List Char) : Prop :=
  ∃ before list behind, front = before ++ '{' :: (list ++ '}' :: behind) ∧ '{' ∉ before ∧
    '}' ∉ list ∧ List.Forall₂ Spelled items (itemRuns list)

theorem openList_brace {before : List Char} (hbefore : '{' ∉ before) :
    OpenList [] [] (before ++ ['{']) :=
  ⟨before, [], rfl, hbefore, by simp, by simp, fun _ => rfl, .nil⟩

section Lists
variable {items : List Specifier} {s : Specifier} {item front text : List Char}

theorem OpenList.push (h : OpenList items item front) (hclose : '}' ∉ text) (hcomma : ',' ∉ text) :
    OpenList items (item ++ text) (front ++ text) := by
  obtain ⟨before, done, rfl, hbefore, hopen, hitem, hdone, hitems⟩ := h
  refine ⟨before, done, by simp, hbefore, ?_, by simp [hitem, hcomma], hdone, hitems⟩
  rw [← List.append_assoc]
  simpa [hclose] using hopen

/-- An item with a name adds the name to those that are spelled. -/
theorem OpenList.forall₂_of_spelled {done : List Char}
    (hdone : ∀ more, itemRuns (done ++ more) = itemRuns done ++ itemRuns more)
    (hitems : List.Forall₂ Spelled items (itemRuns done)) (hcomma : ',' ∉ item)
    (hs : Spelled s (Text.nameRuns item)) :
    List.Forall₂ Spelled (items ++ [s]) (itemRuns (done ++ item)) := by
  have hruns : itemRuns item = [Text.nameRuns item] := by
    rw [itemRuns_item hcomma]
    simp [hs.ne_nil]
  rw [hdone, hruns]
  exact List.rel_append hitems (.cons hs .nil)

theorem OpenList.comma (h : OpenList items item front) (hs : Spelled s (Text.nameRuns item)) :
    OpenList (items ++ [s]) [] (front ++ [',']) := by
  obtain ⟨before, done, rfl, hbefore, hopen, hitem, hdone, hitems⟩ := h
  have hcut (more : List Char) :
      itemRuns (done ++ item ++ [','] ++ more) = itemRuns (done ++ item) ++ itemRuns more := by
    rw [List.append_assoc, List.singleton_append, itemRuns_comma]
  have hnone : itemRuns (done ++ item ++ [',']) = itemRuns (done ++ item) := by
    have := hcut []
    rwa [List.append_nil, show itemRuns [] = [] from rfl, List.append_nil] at this
  refine ⟨before, done ++ item ++ [','], by simp, hbefore, ?_, by simp, ?_, ?_⟩
  · simpa using hopen
  · intro more
    rw [hcut, hnone]
  · rw [hnone]
    exact forall₂_of_spelled hdone hitems hitem hs

/-- A closing brace behind an item without a name closes the list. -/
theorem OpenList.close (h : OpenList items item front) (hitem : Text.nameRuns item = []) :
    ClosedList items (front ++ ['}']) := by
  obtain ⟨before, done, rfl, hbefore, hopen, hcomma, hdone, hitems⟩ := h
  have hruns : itemRuns item = [] := by
    rw [itemRuns_item hcomma]
    simp [hitem]
  refine ⟨before, done ++ item, [], by simp, hbefore, hopen, ?_⟩
  rw [hdone, hruns, List.append_nil]
  exact hitems

/-- A closing brace behind a name closes the list with this name. -/
theorem OpenList.close_name (h : OpenList items item front) (hs : Spelled s (Text.nameRuns item)) :
    ClosedList (items ++ [s]) (front ++ ['}']) := by
  obtain ⟨before, done, rfl, hbefore, hopen, hcomma, hdone, hitems⟩ := h
  exact ⟨before, done ++ item, [], by simp, hbefore, hopen,
    forall₂_of_spelled hdone hitems hcomma hs⟩

theorem ClosedList.append (h : ClosedList items front) (text : List Char) :
    ClosedList items (front ++ text) := by
  obtain ⟨before, list, behind, rfl, hbefore, hlist, hitems⟩ := h
  exact ⟨before, list, behind ++ text, by simp, hbefore, hlist, hitems⟩

theorem ClosedList.forall₂_listText (h : ClosedList items front) :
    List.Forall₂ Spelled items (itemRuns (listText front)) := by
  obtain ⟨before, list, behind, rfl, hbefore, hlist, hitems⟩ := h
  rwa [listText, Text.dropWhile_of_not_mem hbefore, List.drop_one, List.tail_cons,
    Text.takeWhile_of_not_mem hlist]

end Lists

/-! ## What the reader has seen -/

theorem isPlainNameChar_of_isSpace {c : Char} (h : isSpace c = true) :
    Text.isPlainNameChar c = false := by
  rw [Bool.eq_false_iff]
  intro hplain
  have hblank := TypeExpr.isBlank_of_isSpace h
  rw [Text.isBlank_eq_false_of_isPlainNameChar hplain] at hblank
  cases hblank

/-- The word `as` and a name are two runs or, with nothing between them, one. -/
theorem nameRuns_as {gap name : List Char} (hgap : ∀ c ∈ gap, isSpace c = true)
    (hname : IsIdentifier name) :
    Text.nameRuns ("as".toList ++ (gap ++ name)) = ["as".toList, name] ∨
      Text.nameRuns ("as".toList ++ (gap ++ name)) = ["as".toList ++ name] := by
  have has : ∀ c ∈ "as".toList, Text.isPlainNameChar c = true := Text.forall_mem_of_all (by decide)
  cases gap with
  | nil =>
    right
    rw [List.nil_append]
    exact Text.nameRuns_of_plain (by simp) (List.forall_mem_append.2 ⟨has, hname.plain⟩)
  | cons c gap =>
    left
    have hspace : ∀ d ∈ c :: gap, Text.isPlainNameChar d = false := fun d hd =>
      isPlainNameChar_of_isSpace (hgap d hd)
    have hlast : Text.Parted (c :: gap) name :=
      .inl fun d hd => hspace d (List.mem_of_getLast? hd)
    rw [Text.nameRuns_append (.inr (by simpa using hspace c (by simp))),
      Text.nameRuns_append hlast, Text.nameRuns_of_noName hspace,
      Text.nameRuns_of_plain (by decide) has, Text.nameRuns_of_plain hname.ne_nil hname.plain]
    rfl

/-- The names of a clause as its text shows them, in front of some more words. -/
def ClauseSeen (more : List (List Char)) : ImportClause → List Char → Prop
  | .named specifiers, front => ClosedList specifiers front
  | .whole localName, front =>
    Text.nameRuns front = "as".toList :: localName.toList :: more ∨
      Text.nameRuns front = ("as".toList ++ localName.toList) :: more

/-- What was read up to a state shows the names in the state, seen in front of the rest. -/
def Seen (front : List Char) (s : ImportState) (rest : List Char) : Prop :=
  match s with
  | .start => ∀ c ∈ front, isSpace c = true
  | .item items => ∃ item, OpenList items item front ∧
      ∀ c ∈ item, Text.isPlainNameChar c = false
  | .itemRead items last => ∃ item, OpenList items item front ∧
      Text.nameRuns item = [last.imported.toList] ∧ last.localName = last.imported ∧
      Text.Parted item rest
  | .itemRenaming items last => ∃ item gap, OpenList items (item ++ ("as".toList ++ gap)) front ∧
      Text.nameRuns item = [last.imported.toList] ∧
      (∀ c ∈ item.getLast?, Text.isPlainNameChar c = false) ∧ ∀ c ∈ gap, isSpace c = true
  | .itemRenamed items => ∃ init last item, items = init ++ [last] ∧ OpenList init item front ∧
      Spelled last (Text.nameRuns item)
  | .star => ∀ c ∈ front, Text.isPlainNameChar c = false
  | .starRenaming => ∃ lead gap, front = lead ++ ("as".toList ++ gap) ∧
      (∀ c ∈ lead, Text.isPlainNameChar c = false) ∧ ∀ c ∈ gap, isSpace c = true
  | .clauseRead clause => ClauseSeen [] clause front ∧ Text.Parted front rest
  | .source clause => ClauseSeen ["from".toList] clause front
  | .complete clause moduleName => ∃ head quote tail, (quote = '"' ∨ quote = '\'') ∧
      front = head ++ (quote :: moduleName.toList ++ [quote] ++ tail) ∧
      (∀ c ∈ tail, isSpace c = true) ∧ (∀ c ∈ head, isUnquoted c = true) ∧
      ClauseSeen ["from".toList] clause head

section Seen
variable {front rest text : List Char} {s : ImportState}

/-- A blank changes nothing about what was seen. -/
theorem Seen.space {c : Char} (h : Seen front s (c :: rest)) (hc : isSpace c = true) :
    Seen (front ++ [c]) s rest := by
  have hplain := isPlainNameChar_of_isSpace hc
  have hclose : '}' ∉ [c] := by
    rw [List.mem_singleton]
    rintro rfl
    exact absurd hc (by decide)
  have hcomma : ',' ∉ [c] := by
    rw [List.mem_singleton]
    rintro rfl
    exact absurd hc (by decide)
  have hruns (cs : List Char) : Text.nameRuns (cs ++ [c]) = Text.nameRuns cs := by
    rw [Text.nameRuns_split hplain]
    exact List.append_nil _
  have hparted (cs : List Char) : Text.Parted (cs ++ [c]) rest := .inl (by simpa using hplain)
  have hclause {more : List (List Char)} {clause : ImportClause}
      (h : ClauseSeen more clause front) : ClauseSeen more clause (front ++ [c]) := by
    cases clause with
    | named specifiers => exact ClosedList.append h [c]
    | whole localName =>
      simp only [ClauseSeen, hruns]
      exact h
  cases s with
  | start => exact List.forall_mem_append.2 ⟨h, by simpa using hc⟩
  | item items =>
    obtain ⟨item, hopen, hitem⟩ := h
    exact ⟨item ++ [c], hopen.push hclose hcomma,
      List.forall_mem_append.2 ⟨hitem, by simpa using hplain⟩⟩
  | itemRead items last =>
    obtain ⟨item, hopen, hitem, hlocal, -⟩ := h
    exact ⟨item ++ [c], hopen.push hclose hcomma, by rw [hruns, hitem], hlocal, hparted item⟩
  | itemRenaming items last =>
    obtain ⟨item, gap, hopen, hitem, hlast, hgap⟩ := h
    refine ⟨item, gap ++ [c], ?_, hitem, hlast, List.forall_mem_append.2 ⟨hgap, by simpa using hc⟩⟩
    simpa using hopen.push hclose hcomma
  | itemRenamed items =>
    obtain ⟨init, last, item, rfl, hopen, hitem⟩ := h
    exact ⟨init, last, item ++ [c], rfl, hopen.push hclose hcomma, by rwa [hruns]⟩
  | star => exact List.forall_mem_append.2 ⟨h, by simpa using hplain⟩
  | starRenaming =>
    obtain ⟨lead, gap, rfl, hlead, hgap⟩ := h
    exact ⟨lead, gap ++ [c], by simp, hlead, List.forall_mem_append.2 ⟨hgap, by simpa using hc⟩⟩
  | clauseRead clause => exact ⟨hclause h.1, hparted front⟩
  | source clause => exact hclause h
  | complete clause moduleName =>
    obtain ⟨head, quote, tail, hquote, rfl, htail, hhead, hclause⟩ := h
    exact ⟨head, quote, tail ++ [c], hquote, by simp,
      List.forall_mem_append.2 ⟨htail, by simpa using hc⟩, hhead, hclause⟩

/-- An accepted token shows what it adds to the state. -/
theorem Seen.token (base loc : Loc) {terminal : Terminal} (h : Seen front s (text ++ rest))
    (hunquoted : s.result = none → ∀ c ∈ front, isUnquoted c = true)
    (hmem : terminal ∈ s.accepts) (htakes : Takes terminal text rest) :
    Seen (front ++ text) (s.shift base ⟨terminal, text, loc⟩) rest := by
  cases s with
  | start =>
    simp only [ImportState.accepts, List.mem_cons, List.not_mem_nil, or_false] at hmem
    rcases hmem with rfl | rfl
    · obtain rfl := htakes.eq_of_fixed rfl
      refine ⟨[], openList_brace ?_, by simp⟩
      intro hbrace
      exact absurd (h _ hbrace) (by decide)
    · obtain rfl := htakes.eq_of_fixed rfl
      exact List.forall_mem_append.2 ⟨fun c hc => isPlainNameChar_of_isSpace (h c hc),
        Text.forall_mem_of_all (by decide)⟩
  | item items =>
    obtain ⟨item, hopen, hitem⟩ := h
    simp only [ImportState.accepts, List.mem_cons, List.not_mem_nil, or_false] at hmem
    rcases hmem with rfl | rfl
    · obtain ⟨hname, hrest⟩ := htakes.name
      have hparted : Text.Parted item text := .inl fun c hc => hitem c (List.mem_of_getLast? hc)
      have hruns : Text.nameRuns (item ++ text) = [text] := by
        rw [Text.nameRuns_append hparted, Text.nameRuns_of_noName hitem,
          Text.nameRuns_of_plain hname.ne_nil hname.plain]
        rfl
      have hrest : Text.Parted (item ++ text) rest := .inr hrest
      exact ⟨item ++ text, hopen.push (hname.not_mem (by decide)) (hname.not_mem (by decide)),
        by simpa using hruns, rfl, hrest⟩
    · obtain rfl := htakes.eq_of_fixed rfl
      exact ⟨hopen.close (Text.nameRuns_of_noName hitem), .inl (by simp; decide)⟩
  | itemRead items last =>
    obtain ⟨item, hopen, hitem, hlocal, hparted⟩ := h
    have hs : Spelled last (Text.nameRuns item) := .inl (.inl ⟨hitem, hlocal⟩)
    simp only [ImportState.accepts, List.mem_cons, List.not_mem_nil, or_false] at hmem
    rcases hmem with rfl | rfl | rfl
    · obtain rfl := htakes.eq_of_fixed rfl
      refine ⟨item, [], hopen.push (by decide) (by decide), hitem, ?_, by simp⟩
      exact hparted.resolve_right fun hrest => absurd (hrest 'a' rfl) (by decide)
    · obtain rfl := htakes.eq_of_fixed rfl
      exact ⟨[], hopen.comma hs, by simp⟩
    · obtain rfl := htakes.eq_of_fixed rfl
      exact ⟨hopen.close_name hs, .inl (by simp; decide)⟩
  | itemRenaming items last =>
    obtain ⟨item, gap, hopen, hitem, hlast, hgap⟩ := h
    obtain rfl := List.mem_singleton.1 hmem
    obtain ⟨hname, hrest⟩ := htakes.name
    refine ⟨items, _, item ++ ("as".toList ++ gap) ++ text, rfl,
      hopen.push (hname.not_mem (by decide)) (hname.not_mem (by decide)), ?_⟩
    rw [List.append_assoc, List.append_assoc, Text.nameRuns_append (.inl hlast), hitem]
    rcases nameRuns_as hgap hname with hruns | hruns
    · left
      right
      simp only [hruns, String.toList_ofList, List.singleton_append]
    · right
      simp only [Joined, hruns, String.toList_ofList, List.singleton_append]
  | itemRenamed items =>
    obtain ⟨init, last, item, rfl, hopen, hs⟩ := h
    simp only [ImportState.accepts, List.mem_cons, List.not_mem_nil, or_false] at hmem
    rcases hmem with rfl | rfl
    · obtain rfl := htakes.eq_of_fixed rfl
      exact ⟨[], hopen.comma hs, by simp⟩
    · obtain rfl := htakes.eq_of_fixed rfl
      exact ⟨hopen.close_name hs, .inl (by simp; decide)⟩
  | star =>
    obtain rfl := List.mem_singleton.1 hmem
    obtain rfl := htakes.eq_of_fixed rfl
    exact ⟨front, [], rfl, h, by simp⟩
  | starRenaming =>
    obtain ⟨lead, gap, rfl, hlead, hgap⟩ := h
    obtain rfl := List.mem_singleton.1 hmem
    obtain ⟨hname, hrest⟩ := htakes.name
    refine ⟨?_, .inr hrest⟩
    have hparted : Text.Parted lead ("as".toList ++ (gap ++ text)) :=
      .inl fun c hc => hlead c (List.mem_of_getLast? hc)
    simp only [ClauseSeen, List.append_assoc, String.toList_ofList, Text.nameRuns_append hparted,
      Text.nameRuns_of_noName hlead, List.nil_append]
    exact nameRuns_as hgap hname
  | clauseRead clause =>
    obtain ⟨hclause, hparted⟩ := h
    obtain rfl := List.mem_singleton.1 hmem
    obtain rfl := htakes.eq_of_fixed rfl
    cases clause with
    | named specifiers => exact ClosedList.append hclause _
    | whole localName =>
      have hfront : Text.Parted front ['f', 'r', 'o', 'm'] :=
        .inl (hparted.resolve_right fun hrest => absurd (hrest 'f' rfl) (by decide))
      have hruns : Text.nameRuns (front ++ ['f', 'r', 'o', 'm']) =
          Text.nameRuns front ++ [['f', 'r', 'o', 'm']] := by
        rw [Text.nameRuns_append hfront]
        rfl
      simp only [ImportState.shift, Seen, ClauseSeen, hruns]
      refine hclause.imp ?_ ?_
      · intro hwords
        rw [hwords]
        simp
      · intro hwords
        rw [hwords]
        simp
  | source clause =>
    obtain rfl := List.mem_singleton.1 hmem
    obtain ⟨quote, inner, hquote, rfl⟩ := htakes.string
    exact ⟨front, quote, [], hquote, by simp, by simp, hunquoted rfl, h⟩
  | complete clause moduleName => cases hmem

end Seen

/-- The reader of imports keeps what it has seen, and in front of the module it meets no quote. -/
theorem keeps_seen (base : Loc) : (importMachine base).Keeps fun front s rest =>
    Seen front s rest ∧ (s.result = none → ∀ c ∈ front, isUnquoted c = true) := by
  constructor
  · rintro front s c rest ⟨hseen, hunquoted⟩ hc
    have hone : isUnquoted c = true := isUnquoted_of_kind (by decide) (by decide) hc
    exact ⟨hseen.space hc, fun hresult =>
      List.forall_mem_append.2 ⟨hunquoted hresult, by simpa using hone⟩⟩
  · rintro front s cs terminal size loc ⟨hseen, hunquoted⟩ hmem hsize
    obtain ⟨text, rest, rfl, htext, htakes⟩ := exists_takes hmem hsize
    refine ⟨text, rest, rfl, htext, htakes.ne_nil, hseen.token base loc hunquoted hmem htakes, ?_⟩
    intro hresult
    have hnone : s.result = none := by
      cases s with
      | complete clause moduleName => cases hmem
      | _ => rfl
    have hstring : terminal ≠ .string := by
      rintro rfl
      cases s with
      | source clause => cases hresult
      | _ => simp [importMachine, ImportState.accepts] at hmem
    exact List.forall_mem_append.2 ⟨hunquoted hnone, htakes.unquoted hstring⟩

/-! ## Imports that were read -/

/-- The names of a clause are spelled in whole words. -/
def ClauseInWords : ImportClause → (text : List Char) → Prop
  | .named specifiers, text => List.Forall₂ InWords specifiers (itemRuns (listText text))
  | .whole localName, text =>
    Text.nameRuns text = ["as".toList, localName.toList, "from".toList]

/-- The names of a clause are spelled, some of them maybe behind an `as` that goes on with them. -/
def ClauseSpelled : ImportClause → (text : List Char) → Prop
  | .named specifiers, text => List.Forall₂ Spelled specifiers (itemRuns (listText text))
  | .whole localName, text =>
    Text.nameRuns text = ["as".toList, localName.toList, "from".toList] ∨
      Text.nameRuns text = ["as".toList ++ localName.toList, "from".toList]

/-- Holds when a local name has no run of its own, so that its item, or the whole clause, has two
runs. -/
def joinsAs : ImportClause → (text : List Char) → Bool
  | .named _, text => (itemRuns (listText text)).any fun runs => runs.length == 2
  | .whole _, text => (Text.nameRuns text).length == 2

theorem Spelled.inWords_iff {s : Specifier} {runs : List (List Char)} (h : Spelled s runs) :
    InWords s runs ↔ runs.length ≠ 2 := by
  constructor
  · rintro (⟨rfl, -⟩ | rfl) <;> simp
  · intro hlength
    refine h.resolve_right ?_
    rintro rfl
    exact hlength rfl

/-- Names that are spelled are spelled in whole words unless one is joined with `as`. -/
theorem ClauseSpelled.inWords_iff {clause : ImportClause} {text : List Char}
    (h : ClauseSpelled clause text) : ClauseInWords clause text ↔ joinsAs clause text = false := by
  cases clause with
  | named specifiers =>
    simp only [ClauseSpelled, ClauseInWords, joinsAs] at h ⊢
    generalize itemRuns (listText text) = runs at h
    induction h with
    | nil => simp
    | cons hs _ ih => simp [hs.inWords_iff, ih]
  | whole localName =>
    simp only [ClauseSpelled, ClauseInWords, joinsAs] at h ⊢
    rcases h with hruns | hruns <;> simp [hruns]

/-- Cut into maximal runs of name characters, the text of an import in front of its module shows
each name alone, or with `as` and its local name. These are three runs, and `as` is one of them,
unless the local name goes on where `as` ends. -/
theorem readImport_spells_names (loc : Loc) (body : List Char) (clause : ImportClause)
    (moduleName : String) (h : readImport loc body = .ok (.imports clause moduleName)) :
    (∃ quote tail, (quote = '"' ∨ quote = '\'') ∧ (∀ c ∈ tail, isSpace c = true) ∧
      body = clauseText body ++ (quote :: moduleName.toList ++ [quote] ++ tail)) ∧
    ClauseSpelled clause (clauseText body) ∧
    (ClauseInWords clause (clauseText body) ↔ joinsAs clause (clauseText body) = false) := by
  obtain ⟨_, _, heq, hrun⟩ := exists_run_of_readImport h
  cases heq
  have hstart : Seen [] .start body := by
    intro c hc
    cases hc
  obtain ⟨s, ⟨hseen, -⟩, hresult⟩ := (keeps_seen _).run _ ⟨hstart, by simp⟩ hrun
  obtain rfl := eq_complete_of_result hresult
  obtain ⟨head, quote, tail, hquote, hbody, htail, hhead, hclause⟩ := hseen
  have hhead : clauseText body = head := by
    rw [clauseText, hbody, List.takeWhile_append_of_pos hhead]
    rcases hquote with rfl | rfl <;> exact List.append_nil head
  have hspelled : ClauseSpelled clause head := by
    cases clause with
    | named specifiers => exact ClosedList.forall₂_listText hclause
    | whole localName => exact hclause
  rw [hhead]
  exact ⟨⟨quote, tail, hquote, htail, hbody⟩, hspelled, hspelled.inWords_iff⟩

/-- Names that are the words of the notation, or start with them, are spelled in whole words. -/
theorem readImport_spells_names_in_words :
    let body := " \x7b as as from, fromage,\n \x7d from 'm'".toList
    let clause := ImportClause.named [⟨"as", "from", ⟨1, 11⟩⟩, ⟨"fromage", "fromage", ⟨1, 23⟩⟩]
    readImport .first body = .ok (.imports clause "m") ∧ joinsAs clause (clauseText body) = false ∧
      ClauseInWords clause (clauseText body) := by
  intro body clause
  have hread : readImport .first body = .ok (.imports clause "m") := rfl
  have hjoins : joinsAs clause (clauseText body) = false := by decide +kernel
  exact ⟨hread, hjoins, (readImport_spells_names .first body clause "m" hread).2.2.2 hjoins⟩

/-- A word that starts with `as` is read as `as` and a local name. -/
theorem readImport_splits_word :
    let body := " \x7b Foo asB \x7d from \"m\"".toList
    let clause := ImportClause.named [⟨"Foo", "B", ⟨1, 11⟩⟩]
    readImport .first body = .ok (.imports clause "m") ∧
      itemRuns (listText (clauseText body)) = [["Foo".toList, "asB".toList]] ∧
      ¬ClauseInWords clause (clauseText body) := by
  intro body clause
  have hruns : itemRuns (listText (clauseText body)) = [["Foo".toList, "asB".toList]] := by
    decide +kernel
  refine ⟨rfl, hruns, ?_⟩
  intro hwords
  simp only [ClauseInWords, clause, hruns] at hwords
  rcases hwords with _ | ⟨⟨hone, -⟩ | hthree, -⟩
  · cases hone
  · cases hthree

end Tag

end DocSignature
