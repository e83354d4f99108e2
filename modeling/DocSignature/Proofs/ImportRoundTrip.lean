import DocSignature.Proofs.HeadShape
import DocSignature.Proofs.SingleTag
import DocSignature.Proofs.TypeGrammar

/-!
# Imports are read back

An import of some names, each with its local name where that is another one, is written on one line
and read back as these names from the same module. Names may be the words `as` and `from`, and the
module may hold all but its quote and a line feed.
-/

namespace DocSignature

/-! ## Progress of a machine -/

namespace Grammar.Machine

variable {σ ρ : Type} {m : Machine σ ρ}

/-- From a state in front of a text, wherever that stands, the machine gets to the rest of it in a
state with a property. -/
def Gets (m : Machine σ ρ) (state : σ) (cs : List Char) (P : σ → Prop) (rest : List Char) : Prop :=
  ∀ last loc, ∃ state' last' loc', P state' ∧
    m.runFrom state last loc 0 cs = m.runFrom state' last' loc' 0 rest

theorem Gets.trans {state : σ} {cs mid rest : List Char} {P Q : σ → Prop}
    (h : m.Gets state cs P mid) (h' : ∀ s, P s → m.Gets s mid Q rest) :
    m.Gets state cs Q rest := by
  intro last loc
  obtain ⟨s, last, loc, hs, hrun⟩ := h last loc
  obtain ⟨s', last', loc', hs', hrun'⟩ := h' s hs last loc
  exact ⟨s', last', loc', hs', hrun.trans hrun'⟩

theorem Gets.space {state : σ} {cs rest : List Char} {P : σ → Prop} (h : m.Gets state cs P rest) :
    m.Gets state (' ' :: cs) P rest := by
  intro last loc
  rw [runFrom_space _ (by decide)]
  exact h last (loc.next ' ')

theorem gets_token {state : σ} {terminal : Terminal} {text rest : List Char}
    (hfirst : firstOf? (m.accepts state) (text ++ rest) = some (terminal, text.length))
    (htext : ∃ c cs, text = c :: cs ∧ isSpace c = false) {P : σ → Prop}
    (hP : ∀ loc, P (m.shift state ⟨terminal, text, loc⟩)) :
    m.Gets state (text ++ rest) P rest := by
  intro last loc
  obtain ⟨last', loc', hrun⟩ := m.runFrom_token hfirst htext last loc
  exact ⟨_, last', loc', hP loc, hrun⟩

theorem gets_mark {state : σ} {terminal : Terminal} {c : Char} {rest : List Char}
    (hfirst : firstOf? (m.accepts state) (c :: rest) = some (terminal, 1))
    (hc : isSpace c = false) {P : σ → Prop} (hP : ∀ loc, P (m.shift state ⟨terminal, [c], loc⟩)) :
    m.Gets state (c :: rest) P rest :=
  gets_token hfirst ⟨c, [], rfl, hc⟩ hP

end Grammar.Machine

namespace Tag

open Grammar

/-! ## How imports are written -/

/-- How a name is imported: with its local name when that is another one. -/
def specifierText (name : String × String) : List Char :=
  if name.1 = name.2 then name.1.toList else name.1.toList ++ " as ".toList ++ name.2.toList

/-- What follows the name of a tag that imports names with their local names from a module. -/
def importBody (names : List (String × String)) (quote : Char) (moduleName : String) : List Char :=
  " \x7b ".toList ++ (", ".toList.intercalate (names.map specifierText) ++ (" \x7d".toList ++
    (" from ".toList ++ (quote :: moduleName.toList ++ [quote]))))

/-- The names that some specifiers import, with their local names. -/
def pairsOf (specifiers : List Specifier) : List (String × String) :=
  specifiers.map fun s => (s.imported, s.localName)

/-! ## Tokens of an import -/

theorem firstOf?_name {name : List Char} (hname : IsIdentifier name) {rest : List Char}
    (hrest : ∀ c ∈ rest.head?, Text.isPlainNameChar c = false) (more : List Terminal) :
    firstOf? (.name :: more) (name ++ rest) = some (.name, name.length) := by
  obtain ⟨first, others, rfl, hfirst, hothers⟩ := hname
  have hstop : rest.takeWhile Text.isPlainNameChar = [] := by
    cases rest with
    | nil => rfl
    | cons c rest => exact List.takeWhile_cons_of_neg (by simp [hrest c rfl])
  have hsize : nameSize? (first :: (others ++ rest)) = some (others.length + 1) := by
    rw [nameSize?, if_pos hfirst, List.takeWhile_append_of_pos hothers, hstop, List.append_nil,
      Nat.add_comm]
  simp [firstOf?, Terminal.size?, hsize]

theorem exists_cons_of_isIdentifier {name : List Char} (hname : IsIdentifier name) :
    ∃ c cs, name = c :: cs ∧ isSpace c = false := by
  obtain ⟨first, others, rfl, hfirst, -⟩ := hname
  refine ⟨first, others, rfl, Bool.eq_false_iff.2 fun hspace => ?_⟩
  have hblank := TypeExpr.isBlank_of_isSpace hspace
  rw [Text.isBlank_eq_false_of_isPlainNameChar (Text.isPlainNameChar_of_isNameStart hfirst)]
    at hblank
  cases hblank

theorem firstOf?_string {quote : Char} (hquote : quote = '"' ∨ quote = '\'') {text : List Char}
    (htext : quote ∉ text) (hline : '\n' ∉ text) (rest : List Char) :
    firstOf? [.string] (quote :: text ++ quote :: rest) = some (.string, text.length + 2) := by
  have hbody : (text ++ quote :: rest).takeWhile (fun c => c != quote && c != '\n') = text := by
    rw [List.takeWhile_append_of_pos, List.takeWhile_cons_of_neg (by simp), List.append_nil]
    intro c hc
    have hne : c ≠ quote ∧ c ≠ '\n' := ⟨fun h => htext (h ▸ hc), fun h => hline (h ▸ hc)⟩
    simp [hne]
  have hsize : stringSize? (quote :: (text ++ quote :: rest)) = some (text.length + 2) := by
    rw [stringSize?, if_pos (by simpa using hquote)]
    simp only [hbody, List.drop_left, List.head?_cons, if_true]
  simp [firstOf?, Terminal.size?, hsize]

/-! ## The names of an import -/

/-- Some names are read, and another one or the closing brace must come. -/
def BeforeItem (names : List (String × String)) (s : ImportState) : Prop :=
  ∃ items, s = .item items ∧ pairsOf items = names

/-- Some names are read, and a comma or the closing brace must come. -/
def BehindItem (names : List (String × String)) (s : ImportState) : Prop :=
  (∃ items last, s = .itemRead items last ∧ pairsOf (items ++ [last]) = names) ∨
    ∃ items, s = .itemRenamed items ∧ pairsOf items = names

/-- All names and the closing brace are read. -/
def BehindList (names : List (String × String)) (s : ImportState) : Prop :=
  ∃ items, s = .clauseRead (.named items) ∧ pairsOf items = names

section Names
variable {base : Loc} {names : List (String × String)} {rest : List Char} {s : ImportState}

/-- A name is read with its local name. -/
theorem BeforeItem.gets_specifier (hs : BeforeItem names s) {name : String × String}
    (hname : IsIdentifier name.1.toList ∧ IsIdentifier name.2.toList)
    (hrest : ∀ c ∈ rest.head?, Text.isPlainNameChar c = false) :
    (importMachine base).Gets s (specifierText name ++ rest) (BehindItem (names ++ [name]))
      rest := by
  obtain ⟨items, rfl, rfl⟩ := hs
  -- The imported name is read first, whether another name follows or not.
  have himported {rest : List Char} (hrest : ∀ c ∈ rest.head?, Text.isPlainNameChar c = false) :
      (importMachine base).Gets (.item items) (name.1.toList ++ rest)
        (fun s => ∃ loc, s = .itemRead items ⟨name.1, name.1, loc⟩) rest := by
    have hfirst : firstOf? ((importMachine base).accepts (.item items)) (name.1.toList ++ rest) =
        some (.name, name.1.toList.length) := firstOf?_name hname.1 hrest _
    refine Machine.gets_token hfirst (exists_cons_of_isIdentifier hname.1) fun loc =>
      ⟨base.within loc, ?_⟩
    simp [importMachine, ImportState.shift]
  unfold specifierText
  split
  · rename_i heq
    refine (himported hrest).trans ?_
    rintro s ⟨loc, rfl⟩ last place
    exact ⟨_, last, place, .inl ⟨items, _, rfl, by simp [pairsOf, Prod.ext_iff, heq]⟩, rfl⟩
  · rw [List.append_assoc, List.append_assoc]
    refine (himported (by simp; decide)).trans ?_
    rintro s ⟨loc, rfl⟩
    have has : (importMachine base).Gets (.itemRead items ⟨name.1, name.1, loc⟩)
        ("as".toList ++ (' ' :: name.2.toList ++ rest))
        (· = .itemRenaming items ⟨name.1, name.1, loc⟩) (' ' :: name.2.toList ++ rest) :=
      Machine.gets_token rfl ⟨'a', ['s'], rfl, rfl⟩ fun _ => rfl
    refine (has.trans ?_).space
    rintro s rfl
    have hfirst : firstOf? ((importMachine base).accepts
        (.itemRenaming items ⟨name.1, name.1, loc⟩)) (name.2.toList ++ rest) =
        some (.name, name.2.toList.length) := firstOf?_name hname.2 hrest _
    refine Machine.Gets.space (Machine.gets_token hfirst (exists_cons_of_isIdentifier hname.2)
      fun loc => .inr ⟨_, rfl, ?_⟩)
    simp [pairsOf]

theorem BehindItem.gets_comma (hs : BehindItem names s) :
    (importMachine base).Gets s (", ".toList ++ rest) (BeforeItem names) rest := by
  have hcomma : (importMachine base).Gets s (',' :: ' ' :: rest) (BeforeItem names)
      (' ' :: rest) := by
    rcases hs with ⟨items, last, rfl, hnames⟩ | ⟨items, rfl, hnames⟩
    · exact Machine.gets_mark rfl rfl fun loc => ⟨_, rfl, hnames⟩
    · exact Machine.gets_mark rfl rfl fun loc => ⟨_, rfl, hnames⟩
  exact hcomma.trans fun s' hs' => Machine.Gets.space fun last loc => ⟨s', last, loc, hs', rfl⟩

theorem BehindItem.gets_brace (hs : BehindItem names s) :
    (importMachine base).Gets s (" \x7d".toList ++ rest) (BehindList names) rest := by
  apply Machine.Gets.space
  rcases hs with ⟨items, last, rfl, hnames⟩ | ⟨items, rfl, hnames⟩
  · exact Machine.gets_mark rfl rfl fun loc => ⟨_, rfl, hnames⟩
  · exact Machine.gets_mark rfl rfl fun loc => ⟨_, rfl, hnames⟩

/-- The names of an import are read one after the other. -/
theorem BeforeItem.gets_specifiers (hs : BeforeItem names s) (more : List (String × String))
    (name : String × String)
    (hmore : ∀ n ∈ name :: more, IsIdentifier n.1.toList ∧ IsIdentifier n.2.toList)
    (hrest : ∀ c ∈ rest.head?, Text.isPlainNameChar c = false) :
    (importMachine base).Gets s
      (", ".toList.intercalate ((name :: more).map specifierText) ++ rest)
      (BehindItem (names ++ name :: more)) rest := by
  induction more generalizing name names s with
  | nil =>
    rw [List.map_singleton, List.intercalate_singleton]
    exact hs.gets_specifier (hmore name (by simp)) hrest
  | cons next more ih =>
    rw [List.map_cons, List.map_cons, List.intercalate_cons_cons, List.append_assoc,
      List.append_assoc]
    refine (hs.gets_specifier (hmore name (by simp)) (by simp; decide)).trans fun s' hs' =>
      hs'.gets_comma.trans fun s' hs' => ?_
    have hnext := ih hs' next fun n hn => hmore n (by simp [hn])
    rwa [List.append_assoc, List.singleton_append] at hnext

/-- Names in braces are read, be they none. -/
theorem gets_names (names : List (String × String))
    (hnames : ∀ n ∈ names, IsIdentifier n.1.toList ∧ IsIdentifier n.2.toList) :
    (importMachine base).Gets .start
      (" \x7b ".toList ++ (", ".toList.intercalate (names.map specifierText) ++
        (" \x7d".toList ++ rest))) (BehindList names) rest := by
  have hopen : (importMachine base).Gets .start
      (" \x7b ".toList ++ (", ".toList.intercalate (names.map specifierText) ++
        (" \x7d".toList ++ rest))) (BeforeItem [])
      (' ' :: (", ".toList.intercalate (names.map specifierText) ++ (" \x7d".toList ++ rest))) :=
    Machine.Gets.space (Machine.gets_mark rfl rfl fun loc => ⟨[], rfl, rfl⟩)
  refine hopen.trans fun s hs => Machine.Gets.space ?_
  cases names with
  | nil =>
    obtain ⟨items, rfl, hitems⟩ := hs
    exact Machine.Gets.space (Machine.gets_mark rfl rfl fun loc => ⟨items, rfl, hitems⟩)
  | cons name more =>
    have hlist := @BeforeItem.gets_specifiers base [] (" \x7d".toList ++ rest) s hs more name hnames
      (by simp; decide)
    exact hlist.trans fun s' hs' => hs'.gets_brace

end Names

/-! ## The whole import -/

section Import
variable {names : List (String × String)} {quote : Char} {moduleName : String}

/-- Behind the names come the word `from` and the module in its quotes. -/
theorem gets_module (base : Loc) (hquote : quote = '"' ∨ quote = '\'')
    (hfree : quote ∉ moduleName.toList) (hline : '\n' ∉ moduleName.toList)
    (clause : ImportClause) :
    (importMachine base).Gets (.clauseRead clause)
      (" from ".toList ++ (quote :: moduleName.toList ++ [quote]))
      (· = .complete clause moduleName) [] := by
  have hfrom : (importMachine base).Gets (.clauseRead clause)
      ("from".toList ++ (' ' :: (quote :: moduleName.toList ++ [quote])))
      (· = .source clause) (' ' :: (quote :: moduleName.toList ++ [quote])) :=
    Machine.gets_token rfl ⟨'f', "rom".toList, rfl, rfl⟩ fun _ => rfl
  refine (hfrom.trans ?_).space
  rintro s rfl
  have hfirst : firstOf? ((importMachine base).accepts (.source clause))
      ((quote :: moduleName.toList ++ [quote]) ++ []) =
      some (.string, (quote :: moduleName.toList ++ [quote]).length) := by
    have hstring := firstOf?_string hquote hfree hline []
    simpa [importMachine, ImportState.accepts] using hstring
  have hspace : isSpace quote = false := by
    rcases hquote with rfl | rfl <;> rfl
  rw [← List.append_nil (quote :: moduleName.toList ++ [quote])]
  refine (Machine.gets_token hfirst ⟨quote, _, rfl, hspace⟩ fun loc => ?_).space
  simp [importMachine, ImportState.shift]

/-- An import that was written is read to its end. -/
theorem run_importBody (base : Loc)
    (hnames : ∀ n ∈ names, IsIdentifier n.1.toList ∧ IsIdentifier n.2.toList)
    (hquote : quote = '"' ∨ quote = '\'') (hfree : quote ∉ moduleName.toList)
    (hline : '\n' ∉ moduleName.toList) :
    ∃ specifiers, pairsOf specifiers = names ∧
      (importMachine base).run .start (importBody names quote moduleName) =
        .ok (.named specifiers, moduleName) := by
  have hall : (importMachine base).Gets .start (importBody names quote moduleName)
      (fun s => ∃ items, pairsOf items = names ∧ s = .complete (.named items) moduleName) [] := by
    refine (gets_names names hnames).trans ?_
    rintro s ⟨items, rfl, hitems⟩
    refine (gets_module base hquote hfree hline (.named items)).trans ?_
    rintro s rfl last loc
    exact ⟨_, last, loc, ⟨items, hitems, rfl⟩, rfl⟩
  obtain ⟨s, last, loc, ⟨items, hitems, rfl⟩, hrun⟩ := hall .first .first
  exact ⟨items, hitems, hrun⟩

/-- Holds of a character that may stand between the braces of an import. -/
def isListChar (c : Char) : Bool :=
  Text.isPlainNameChar c || c == ' ' || c == ','

theorem isListChar_of_isIdentifier {name : List Char} (h : IsIdentifier name) :
    ∀ c ∈ name, isListChar c = true := by
  intro c hc
  simp [isListChar, h.plain c hc]

theorem isListChar_of_mem_specifierText {name : String × String}
    (hname : IsIdentifier name.1.toList ∧ IsIdentifier name.2.toList) :
    ∀ c ∈ specifierText name, isListChar c = true := by
  unfold specifierText
  split
  · exact isListChar_of_isIdentifier hname.1
  · have hword : ∀ c ∈ " as ".toList, isListChar c = true := Text.forall_mem_of_all (by decide)
    exact List.forall_mem_append.2 ⟨List.forall_mem_append.2
      ⟨isListChar_of_isIdentifier hname.1, hword⟩, isListChar_of_isIdentifier hname.2⟩

/-- Between the braces there are names, blanks and commas only. -/
theorem isListChar_of_mem_names
    (hnames : ∀ n ∈ names, IsIdentifier n.1.toList ∧ IsIdentifier n.2.toList) :
    ∀ c ∈ ", ".toList.intercalate (names.map specifierText), isListChar c = true := by
  intro c hc
  have hcomma : ∀ c ∈ ", ".toList, isListChar c = true := Text.forall_mem_of_all (by decide)
  rcases Text.mem_intercalate hc with hc | ⟨xs, hxs, hc⟩
  · exact hcomma c hc
  · obtain ⟨name, hname, rfl⟩ := List.mem_map.1 hxs
    exact isListChar_of_mem_specifierText (hnames name hname) c hc

theorem bracesClose_importBody
    (hnames : ∀ n ∈ names, IsIdentifier n.1.toList ∧ IsIdentifier n.2.toList) :
    bracesClose (importBody names quote moduleName) = true := by
  have hchars := isListChar_of_mem_names hnames
  have hbrace : braceEnd? 0
      ((' ' :: ", ".toList.intercalate (names.map specifierText) ++ [' ']) ++
        '}' :: (" from ".toList ++ (quote :: moduleName.toList ++ [quote]))) =
      some (' ' :: ", ".toList.intercalate (names.map specifierText) ++ [' ']).length := by
    apply braceEnd?_append
    · intro hmem
      have hmem : '{' ∈ ", ".toList.intercalate (names.map specifierText) := by simpa using hmem
      exact absurd (hchars _ hmem) (by decide)
    · intro hmem
      have hmem : '}' ∈ ", ".toList.intercalate (names.map specifierText) := by simpa using hmem
      exact absurd (hchars _ hmem) (by decide)
  have hdrop : (importBody names quote moduleName).dropWhile (· != '{') =
      '{' :: ((' ' :: ", ".toList.intercalate (names.map specifierText) ++ [' ']) ++
        '}' :: (" from ".toList ++ (quote :: moduleName.toList ++ [quote]))) := by
    simp [importBody]
  rw [bracesClose, hdrop]
  simp only [hbrace, Option.isSome_some]

theorem sized_fromQuote? : Text.Sized fromQuote? := by
  intro before cs value size h
  unfold fromQuote? at h
  split at h
  · cases h
  · split at h
    · rename_i rest hafter
      split at h
      · split at h
        · cases h
          rw [Header.eq_append_of_after? hafter]
          simp
        · cases h
      · cases h
    · cases h

/-- The word `from` in front of a quote announces a module, whatever stands before it. -/
theorem announcesModule_from (hquote : quote = '"' ∨ quote = '\'') (front rest : List Char) :
    announcesModule (front ++ (" from ".toList ++ quote :: rest)) = true := by
  have hfind : fromQuote? (some ' ') ("from ".toList ++ quote :: rest) = some ((), 4) := by
    rcases hquote with rfl | rfl <;> rfl
  have hlast : (front ++ [' ']).getLast? = some ' ' := List.getLast?_concat
  rw [← hlast] at hfind
  obtain ⟨hit, hhit, -⟩ := Text.exists_hit_of_find sized_fromQuote? (by simp) hfind
  have hbody : front ++ (" from ".toList ++ quote :: rest) =
      front ++ [' '] ++ ("from ".toList ++ quote :: rest) := by simp
  rw [announcesModule, hbody]
  simpa using List.ne_nil_of_mem hhit

theorem announcesModule_importBody (hquote : quote = '"' ∨ quote = '\'') :
    announcesModule (importBody names quote moduleName) = true := by
  rw [importBody, ← List.append_assoc, ← List.append_assoc]
  exact announcesModule_from hquote _ _

/-! ## Tags that import -/

/-- The tag that imports names with their local names from a module in quotes. -/
def importText (names : List (String × String)) (quote : Char) (moduleName : String) : List Char :=
  '@' :: ("import".toList ++ importBody names quote moduleName)

/-- A tag that brings in names with their local names from a module. -/
def BringsIn (tag : Tag) (names : List (String × String)) (moduleName : String) : Prop :=
  ∃ specifiers, tag.body = .imports (.named specifiers) moduleName ∧ pairsOf specifiers = names

/-- A tag with the name of imports is read as what follows the name. -/
theorem readBody_import (loc : Loc) (body : List Char) :
    readBody ⟨"import".toList, loc, '@' :: ("import".toList ++ body)⟩ = readImport loc body := by
  rw [readBody, if_pos (by rfl), List.drop_succ_cons, List.drop_left]

theorem read_import (file : Option String) (loc : Loc)
    (hnames : ∀ n ∈ names, IsIdentifier n.1.toList ∧ IsIdentifier n.2.toList)
    (hquote : quote = '"' ∨ quote = '\'') (hmodule : moduleName ≠ "")
    (hfree : quote ∉ moduleName.toList) (hline : '\n' ∉ moduleName.toList) :
    ∃ tag, BringsIn tag names moduleName ∧
      read file ⟨"import".toList, loc, importText names quote moduleName⟩ = (tag, []) := by
  obtain ⟨specifiers, hspecifiers, hrun⟩ := run_importBody (loc.forward "@import".length) hnames
    hquote hfree hline
  have hbody : readBody ⟨"import".toList, loc, importText names quote moduleName⟩ =
      .ok (.imports (.named specifiers) moduleName) := by
    rw [importText, readBody_import, readImport, bracesClose_importBody hnames,
      announcesModule_importBody hquote, hrun]
    simp [hmodule]
  refine ⟨⟨loc, String.ofList (importText names quote moduleName), _⟩,
    ⟨specifiers, rfl, hspecifiers⟩, ?_⟩
  simp only [read, hbody]

theorem startedName?_import (body : List Char) :
    startedName? ('@' :: ("import".toList ++ ' ' :: body)) = some "import".toList := by
  rw [show "import".toList = ['i', 'm', 'p', 'o', 'r', 't'] by simp]
  rfl

/-- A tag that ends with a quote has no blanks around it. -/
theorem trimmed_quoted (hquote : quote = '"' ∨ quote = '\'') (text : List Char) :
    Text.Trimmed ('@' :: text ++ [quote]) := by
  refine Text.trimmed_of_ends rfl ?_
  rw [List.getLast?_concat]
  rcases hquote with rfl | rfl <;> rfl

theorem trimmed_importText (hquote : quote = '"' ∨ quote = '\'') :
    Text.Trimmed (importText names quote moduleName) := by
  have htrimmed := trimmed_quoted hquote ("import".toList ++ (" \x7b ".toList ++
    (", ".toList.intercalate (names.map specifierText) ++ (" \x7d".toList ++
      (" from ".toList ++ quote :: moduleName.toList)))))
  simpa [importText, importBody] using htrimmed

theorem line_importText
    (hnames : ∀ n ∈ names, IsIdentifier n.1.toList ∧ IsIdentifier n.2.toList)
    (hquote : quote = '"' ∨ quote = '\'') (hline : '\n' ∉ moduleName.toList) :
    '\n' ∉ importText names quote moduleName := by
  have hchars : '\n' ∉ ", ".toList.intercalate (names.map specifierText) := fun hmem =>
    absurd (isListChar_of_mem_names hnames _ hmem) (by decide)
  have hne : '\n' ≠ quote := by
    rcases hquote with rfl | rfl <;> decide
  have hword : ∀ word ∈ ["import", " \x7b ", " \x7d", " from "], '\n' ∉ word.toList := by
    simp
  simp only [List.forall_mem_cons, List.not_mem_nil, false_implies, implies_true, and_true] at hword
  simp only [importText, importBody, List.mem_cons, List.mem_append, hword, hchars, hline, hne,
    List.not_mem_nil, or_false]
  decide

end Import

/-- An import of names is read back as the names, with their local names and in their order, and as
the module; nothing is said about it. This holds of the tag wherever it stands, and of the comment
that has no other tag. -/
theorem importText_is_read_back (file : Option String) (names : List (String × String))
    (quote : Char) (moduleName : String)
    (hnames : ∀ n ∈ names, IsIdentifier n.1.toList ∧ IsIdentifier n.2.toList)
    (hquote : quote = '"' ∨ quote = '\'') (hmodule : moduleName ≠ "")
    (hfree : quote ∉ moduleName.toList) (hline : '\n' ∉ moduleName.toList) :
    (∀ loc, ∃ tag, BringsIn tag names moduleName ∧
      read file ⟨"import".toList, loc, importText names quote moduleName⟩ = (tag, [])) ∧
    ∀ loc, ∃ tag, BringsIn tag names moduleName ∧
      readAll file loc ("/** ".toList ++ importText names quote moduleName ++ " */".toList) =
        ([tag], []) := by
  have hread := fun loc => read_import file loc hnames hquote hmodule hfree hline
  refine ⟨hread, fun loc => ?_⟩
  obtain ⟨tag, htag, heq⟩ := hread (loc.forward 4)
  have hraw := rawTags_line loc (trimmed_importText hquote) (line_importText hnames hquote hline)
    (startedName?_import _)
  exact ⟨tag, htag, by rw [readAll_single file hraw, heq]⟩

/-- The words of the notation are read back as names, and a brace and another quote as parts of the
module. -/
theorem importText_of_words_is_read_back :
    let names := [("as", "from"), ("from", "from"), ("fromage", "as")]
    let moduleName := "./\x7d from 'x'"
    importText names '"' moduleName =
      "@import \x7b as as from, from, fromage as as \x7d from \"./\x7d from 'x'\"".toList ∧
    ∃ tag, BringsIn tag names moduleName ∧
      readAll none .first ("/** ".toList ++ importText names '"' moduleName ++ " */".toList) =
        ([tag], []) := by
  intro names moduleName
  exact ⟨by decide +kernel, (importText_is_read_back none names '"' moduleName (by decide +kernel)
    (.inl rfl) (by decide) (by decide +kernel) (by decide +kernel)).2 .first⟩

end Tag

end DocSignature
