import DocSignature.Proofs.Blank
import DocSignature.Proofs.Pieces

/-!
# Cutting parameter lists

A list is cut at the commas that stand outside of literals and brackets. How deep a comma stands is
told by the pieces before it, so a list that was joined from parts without such commas is cut into
them again, and from any text nothing is lost but commas and blanks.
-/

namespace DocSignature.Header

deriving instance DecidableEq for Piece

/-! ## Putting text in front of parts -/

theorem prepend_prepend (xs ys : List Char) (parts : List (List Char)) :
    prepend xs (prepend ys parts) = prepend (xs ++ ys) parts := by
  cases parts <;> simp [prepend]

theorem prepend_ne_nil (xs : List Char) (parts : List (List Char)) : prepend xs parts ≠ [] := by
  cases parts <;> simp [prepend]

theorem partsAt_ne_nil (angles : Bool) (depth : Nat) (ps : List Piece) :
    partsAt angles depth ps ≠ [] := by
  fun_cases partsAt angles depth ps <;> simp [prepend_ne_nil]

theorem prepend_nil_partsAt (angles : Bool) (depth : Nat) (ps : List Piece) :
    prepend [] (partsAt angles depth ps) = partsAt angles depth ps := by
  obtain ⟨part, rest, h⟩ := List.exists_cons_of_ne_nil (partsAt_ne_nil angles depth ps)
  simp [h, prepend]

/-! ## Nesting -/

/-- The nesting behind a piece that stands at nesting `depth`. A bracket that closes nothing does
not count. -/
def nestingBehind (angles : Bool) (depth : Nat) : Piece → Nat
  | .literal _ => depth
  | .char c =>
    if opens c || (angles && c == '<') then depth + 1
    else if closes c || (angles && c == '>') then depth - 1
    else depth

/-- The nesting behind a row of pieces. -/
def nestingAfter (angles : Bool) (depth : Nat) (ps : List Piece) : Nat :=
  ps.foldl (nestingBehind angles) depth

@[simp]
theorem nestingAfter_cons (angles : Bool) (depth : Nat) (p : Piece) (ps : List Piece) :
    nestingAfter angles depth (p :: ps) =
      nestingAfter angles (nestingBehind angles depth p) ps := rfl

/-- A row of pieces in which every comma stands inside of some bracket. -/
def Uncut (angles : Bool) (depth : Nat) (ps : List Piece) : Prop :=
  ∀ before after, ps = before ++ .char ',' :: after → 1 ≤ nestingAfter angles depth before

theorem uncut_nil (angles : Bool) (depth : Nat) : Uncut angles depth [] := by
  intro before after h
  cases before <;> cases h

theorem uncut_cons {angles : Bool} {depth : Nat} {p : Piece} {ps : List Piece} :
    Uncut angles depth (p :: ps) ↔
      (p = .char ',' → 1 ≤ depth) ∧ Uncut angles (nestingBehind angles depth p) ps := by
  constructor
  · intro h
    refine ⟨?_, fun before after hps => h (p :: before) after (by rw [hps, List.cons_append])⟩
    rintro rfl
    exact h [] ps rfl
  · rintro ⟨hcomma, hps⟩ before after heq
    cases before with
    | nil =>
      cases heq
      exact hcomma rfl
    | cons q before =>
      cases heq
      exact hps before after rfl

instance instDecidableUncut (angles : Bool) : ∀ depth ps, Decidable (Uncut angles depth ps)
  | depth, [] => .isTrue (uncut_nil angles depth)
  | depth, p :: ps =>
    have := instDecidableUncut angles (nestingBehind angles depth p) ps
    decidable_of_iff _ uncut_cons.symm

/-! ## What cutting does -/

theorem partsAt_comma (angles : Bool) (ps : List Piece) :
    partsAt angles 0 (.char ',' :: ps) = [] :: partsAt angles 0 ps := by
  simp [partsAt, opens, closes]

/-- A piece that is not cut at goes to the part that follows. -/
theorem partsAt_cons {angles : Bool} {depth : Nat} {p : Piece} (h : p = .char ',' → 1 ≤ depth)
    (ps : List Piece) :
    partsAt angles depth (p :: ps) =
      prepend p.chars (partsAt angles (nestingBehind angles depth p) ps) := by
  cases p with
  | literal text => rfl
  | char c =>
    have hcomma : (decide (c = ',') && decide (depth = 0)) = false := by
      by_cases hc : c = ','
      · have := h (by rw [hc])
        simp only [hc, decide_true, Bool.true_and, decide_eq_false_iff_not]
        omega
      · simp [hc]
    simp only [partsAt, nestingBehind, Piece.chars, hcomma]
    split
    · rfl
    · split <;> rfl

/-- Pieces that are not cut go to the part that follows, all together. -/
theorem partsAt_append {angles : Bool} {depth : Nat} {ps : List Piece} (h : Uncut angles depth ps)
    (qs : List Piece) :
    partsAt angles depth (ps ++ qs) =
      prepend (chars ps) (partsAt angles (nestingAfter angles depth ps) qs) := by
  induction ps generalizing depth with
  | nil => exact (prepend_nil_partsAt _ _ _).symm
  | cons p ps ih =>
    obtain ⟨hp, hps⟩ := uncut_cons.1 h
    rw [List.cons_append, partsAt_cons hp, ih hps, prepend_prepend]
    rfl

/-! ## Joined lists -/

/-- Some texts with commas between them. -/
def joined (texts : List (List Char)) : List Char := ", ".toList.intercalate texts

theorem joined_cons_cons (text next : List Char) (texts : List (List Char)) :
    joined (text :: next :: texts) = text ++ ',' :: ' ' :: joined (next :: texts) := by
  simp [joined, List.intercalate_cons_cons]

/-- A text that becomes part of what follows it in a list, undivided. -/
def Undivided (angles : Bool) (text : List Char) : Prop :=
  ∀ rest, partsAt angles 0 (pieces (text ++ rest)) = prepend text (partsAt angles 0 (pieces rest))

/-- A joined list is cut at the commas it was joined with. -/
theorem partsAt_joined {angles : Bool} {text : List Char} {texts : List (List Char)}
    (h : ∀ t ∈ text :: texts, Undivided angles t) :
    partsAt angles 0 (pieces (joined (text :: texts))) = text :: texts.map (' ' :: ·) := by
  induction texts generalizing text with
  | nil => simpa [joined, pieces, piecesFrom, partsAt, prepend] using h text (by simp) []
  | cons next texts ih =>
    have ih := @ih next fun t ht => h t (List.mem_cons_of_mem text ht)
    have hspace : partsAt angles 0 (pieces (' ' :: joined (next :: texts))) =
        (' ' :: next) :: texts.map (' ' :: ·) := by
      have hbehind : nestingBehind angles 0 (.char ' ') = 0 := by
        simp [nestingBehind, opens, closes]
      rw [pieces_char (by decide), partsAt_cons (by simp), hbehind, ih]
      rfl
    rw [joined_cons_cons, h text (by simp), pieces_char (by decide), partsAt_comma, hspace]
    simp [prepend]

/-- Trimmed texts that are not divided are read back from the list they are joined to. -/
theorem splitParams_of_undivided {angles : Bool} {texts : List (List Char)}
    (h : ∀ text ∈ texts, Undivided angles text ∧ Text.Trimmed text) :
    splitParams angles (joined texts) = texts := by
  cases texts with
  | nil => rfl
  | cons text texts =>
    rw [splitParams, partsAt_joined fun t ht => (h t ht).1]
    have htrim : (text :: texts.map (' ' :: ·)).map Text.trim = text :: texts := by
      have hspace : ∀ t ∈ texts, Text.trim (' ' :: t) = t := by
        intro t ht
        exact (h t (by simp [ht])).2.trim_eq
      rw [List.map_cons, List.map_map, (h text (by simp)).2.trim_eq]
      congr 1
      exact (List.map_congr_left hspace).trans (List.map_id texts)
    rw [htrim, List.filter_eq_self]
    intro t ht
    simpa using (h t ht).2.ne_nil

/-! ## Parts with literals in them -/

/-- Holds of single characters, and of literals with a closing quote. -/
def Piece.IsClosed : Piece → Prop
  | .char _ => True
  | .literal [] => False
  | .literal (quote :: tail) => Terminated quote tail

instance : DecidablePred Piece.IsClosed
  | .char _ => .isTrue trivial
  | .literal [] => .isFalse id
  | .literal (quote :: tail) => inferInstanceAs (Decidable (Terminated quote tail))

/-- The pieces of a text with closed literals do not depend on what follows it. -/
theorem pieces_append_of_isClosed {xs : List Char} (h : ∀ p ∈ pieces xs, p.IsClosed)
    (ys : List Char) : pieces (xs ++ ys) = pieces xs ++ pieces ys := by
  generalize hps : pieces xs = ps at h
  induction ps generalizing xs with
  | nil =>
    obtain rfl : xs = [] := by rw [← chars_pieces xs, hps, chars_nil]
    rfl
  | cons p ps ih =>
    rw [List.forall_mem_cons] at h
    rcases cons_of_pieces hps with ⟨c, rest, rfl, hc, rfl, hrest⟩ | ⟨c, rest, rfl, hc, rfl, hrest⟩
    · rw [List.cons_append, pieces_char hc, ih hrest.symm h.2, List.cons_append]
    · have hih := ih hrest.symm h.2
      have hself := pieces_terminated hc h.1 (rest.drop (literalLength c rest) ++ ys)
      rwa [← List.append_assoc, List.take_append_drop, hih] at hself

/-- What a part must be like to be told from its neighbours in a list: not empty, trimmed, with
closed literals, commas only inside of brackets, and none of these open at its end. -/
structure IsPart (angles : Bool) (part : List Char) : Prop where
  ne_nil : part ≠ []
  trim_eq : Text.trim part = part
  closed : ∀ p ∈ pieces part, p.IsClosed
  commas : Uncut angles 0 (pieces part)
  level : nestingAfter angles 0 (pieces part) = 0

instance (angles : Bool) : DecidablePred (IsPart angles) := fun part =>
  decidable_of_iff (part ≠ [] ∧ Text.trim part = part ∧ (∀ p ∈ pieces part, p.IsClosed) ∧
      Uncut angles 0 (pieces part) ∧ nestingAfter angles 0 (pieces part) = 0)
    ⟨fun ⟨h₁, h₂, h₃, h₄, h₅⟩ => ⟨h₁, h₂, h₃, h₄, h₅⟩,
      fun h => ⟨h.ne_nil, h.trim_eq, h.closed, h.commas, h.level⟩⟩

theorem IsPart.undivided {angles : Bool} {part : List Char} (h : IsPart angles part) :
    Undivided angles part := by
  intro rest
  rw [pieces_append_of_isClosed h.closed, partsAt_append h.commas, h.level, chars_pieces]

theorem IsPart.trimmed {angles : Bool} {part : List Char} (h : IsPart angles part) :
    Text.Trimmed part := by
  rw [← h.trim_eq]
  exact Text.trimmed_trim (by rw [h.trim_eq]; exact h.ne_nil)

/-- A list is cut into the parts that it was joined from. -/
theorem splitParams_undoes_joining (angles : Bool) (parts : List (List Char))
    (h : ∀ part ∈ parts, IsPart angles part) : splitParams angles (joined parts) = parts :=
  splitParams_of_undivided fun part hpart => ⟨(h part hpart).undivided, (h part hpart).trimmed⟩

/-- A default that nests, a literal with a comma and an escaped quote in it, and a generic type. -/
def mixedParts : List (List Char) :=
  ["a = [1, 2]".toList, "b = 'x\\',('".toList, "Map<K, V> c".toList]

/-- The last of them is a part only where angle brackets nest. -/
theorem splitParams_undoes_joining_mixedParts :
    (∀ part ∈ mixedParts, IsPart true part) ∧ ¬IsPart false "Map<K, V> c".toList ∧
    joined mixedParts = "a = [1, 2], b = 'x\\',(', Map<K, V> c".toList ∧
    splitParams true (joined mixedParts) = mixedParts := by
  have hparts : ∀ part ∈ mixedParts, IsPart true part := by decide +kernel
  exact ⟨hparts, by decide +kernel, by decide +kernel,
    splitParams_undoes_joining true mixedParts hparts⟩

/-! ## Any text -/

/-- The rows between the commas that pieces are cut at. Each of these stands at nesting zero, and no
other comma does. -/
inductive Cut (angles : Bool) : Nat → List Piece → List (List Piece) → Prop
  | last {depth : Nat} {row : List Piece} (hrow : Uncut angles depth row) :
      Cut angles depth row [row]
  | comma {depth : Nat} {row ps : List Piece} {rows : List (List Piece)}
      (hrow : Uncut angles depth row) (hlevel : nestingAfter angles depth row = 0)
      (hrest : Cut angles 0 ps rows) : Cut angles depth (row ++ .char ',' :: ps) (row :: rows)

/-- A piece that is not cut at goes to the first row. -/
theorem Cut.exists_cons {angles : Bool} {depth : Nat} {p : Piece} {ps : List Piece}
    {rows : List (List Piece)} (h : Cut angles (nestingBehind angles depth p) ps rows)
    (hp : p = .char ',' → 1 ≤ depth) : ∃ rows, Cut angles depth (p :: ps) rows := by
  cases h with
  | last hrow => exact ⟨_, .last (uncut_cons.2 ⟨hp, hrow⟩)⟩
  | @comma _ row _ rows hrow hlevel hrest =>
    exact ⟨(p :: row) :: rows, @Cut.comma _ _ (p :: row) _ _ (uncut_cons.2 ⟨hp, hrow⟩) hlevel hrest⟩

theorem exists_cut (angles : Bool) (ps : List Piece) :
    ∀ depth, ∃ rows, Cut angles depth ps rows := by
  induction ps with
  | nil => exact fun depth => ⟨[[]], .last (uncut_nil angles depth)⟩
  | cons p ps ih =>
    intro depth
    by_cases hp : p = .char ',' → 1 ≤ depth
    · obtain ⟨rows, hrows⟩ := ih (nestingBehind angles depth p)
      exact hrows.exists_cons hp
    · obtain ⟨rfl, hdepth⟩ := Classical.not_imp.1 hp
      obtain rfl : depth = 0 := by omega
      obtain ⟨rows, hrows⟩ := ih 0
      exact ⟨[] :: rows, @Cut.comma _ _ [] _ _ (uncut_nil angles 0) rfl hrows⟩

section Cut
variable {angles : Bool} {depth : Nat} {ps : List Piece} {rows : List (List Piece)}
  (h : Cut angles depth ps rows)
include h

theorem Cut.ne_nil : rows ≠ [] := by
  cases h <;> exact List.cons_ne_nil _ _

/-- The parts of a list are its rows. -/
theorem Cut.partsAt_eq : partsAt angles depth ps = rows.map chars := by
  induction h with
  | @last depth row hrow =>
    have hparts := partsAt_append hrow []
    rw [List.append_nil] at hparts
    simp [hparts, partsAt, prepend]
  | comma hrow hlevel _ ih =>
    rw [partsAt_append hrow, hlevel, partsAt_comma, ih]
    simp [prepend]

/-- The rows of a list make up its text, with their commas. -/
theorem Cut.chars_eq : chars ps = [','].intercalate (rows.map chars) := by
  induction h with
  | last => simp
  | @comma _ row ps rows _ _ hrest ih =>
    obtain ⟨next, rows, rfl⟩ := List.exists_cons_of_ne_nil hrest.ne_nil
    rw [chars_append, chars_char, ih]
    simp [List.intercalate_cons_cons]

end Cut

/-- Holds of blanks and of commas. -/
def isFiller (c : Char) : Bool :=
  Text.isBlank c || c == ','

/-- Some parts stand in a text in this order and do not overlap, with nothing but blanks and commas
before, between and behind them. -/
inductive Scattered : List (List Char) → List Char → Prop
  | nil {gap : List Char} (hgap : ∀ c ∈ gap, isFiller c = true) : Scattered [] gap
  | cons {gap part rest : List Char} {parts : List (List Char)}
      (hgap : ∀ c ∈ gap, isFiller c = true) (hrest : Scattered parts rest) :
      Scattered (part :: parts) (gap ++ (part ++ rest))

theorem isFiller_of_isBlank {c : Char} (h : Text.isBlank c = true) : isFiller c = true := by
  simp [isFiller, h]

theorem Scattered.filler_append {parts : List (List Char)} {cs : List Char} (h : Scattered parts cs)
    {filler : List Char} (hfiller : ∀ c ∈ filler, isFiller c = true) :
    Scattered parts (filler ++ cs) := by
  cases h with
  | nil hgap => exact .nil (List.forall_mem_append.2 ⟨hfiller, hgap⟩)
  | cons hgap hrest =>
    rw [← List.append_assoc]
    exact .cons (List.forall_mem_append.2 ⟨hfiller, hgap⟩) hrest

/-- What is left of a row stands in it, if anything is left. -/
theorem Scattered.row_append {parts : List (List Char)} {cs : List Char} (h : Scattered parts cs)
    (row : List Char) :
    Scattered (([row].map Text.trim).filter (!·.isEmpty) ++ parts) (row ++ cs) := by
  obtain ⟨before, after, hrow, hbefore, hafter⟩ := Text.eq_blanks_append_trim row
  have hbefore' : ∀ c ∈ before, isFiller c = true := fun c hc => isFiller_of_isBlank (hbefore c hc)
  have hbehind : Scattered parts (after ++ cs) :=
    h.filler_append fun c hc => isFiller_of_isBlank (hafter c hc)
  rw [show row ++ cs = before ++ (Text.trim row ++ (after ++ cs)) by
    conv_lhs => rw [hrow]
    simp]
  cases htrim : Text.trim row with
  | nil => simpa [htrim] using hbehind.filler_append hbefore'
  | cons c part => simpa [htrim] using @Scattered.cons before (c :: part) _ parts hbefore' hbehind

theorem scattered_rows (rows : List (List Char)) :
    Scattered ((rows.map Text.trim).filter (!·.isEmpty)) ([','].intercalate rows) := by
  induction rows with
  | nil => exact .nil (by simp)
  | cons row rows ih =>
    rw [← List.singleton_append, List.map_append, List.filter_append]
    cases rows with
    | nil => simpa using (@Scattered.nil [] (by simp)).row_append row
    | cons next rows =>
      rw [List.singleton_append, List.intercalate_cons_cons, List.append_assoc]
      exact (ih.filler_append (by simp [isFiller])).row_append row

theorem trimmed_of_mem_splitParams {angles : Bool} {cs part : List Char}
    (h : part ∈ splitParams angles cs) : Text.Trimmed part := by
  obtain ⟨hmem, hne⟩ := List.mem_filter.1 h
  obtain ⟨raw, -, rfl⟩ := List.mem_map.1 hmem
  exact Text.trimmed_trim (by simpa using hne)

/-- Of any text, with brackets and quotes closed or not, the parameters are not empty and have no
blanks around them, and only blanks and commas are left out. They are the rows between the commas at
nesting zero, without the blank ones. -/
theorem splitParams_loses_nothing (angles : Bool) (cs : List Char) :
    (∀ part ∈ splitParams angles cs, part ≠ [] ∧ Text.trim part = part) ∧
    Scattered (splitParams angles cs) cs ∧
    ∃ rows, Cut angles 0 (pieces cs) rows ∧
      splitParams angles cs = ((rows.map chars).map Text.trim).filter (!·.isEmpty) := by
  obtain ⟨rows, hcut⟩ := exists_cut angles (pieces cs) 0
  have hsplit : splitParams angles cs = ((rows.map chars).map Text.trim).filter (!·.isEmpty) := by
    rw [splitParams, hcut.partsAt_eq]
  have hcs : cs = [','].intercalate (rows.map chars) := by
    rw [← hcut.chars_eq, chars_pieces]
  refine ⟨fun part hpart => ?_, ?_, rows, hcut, hsplit⟩
  · have htrimmed := trimmed_of_mem_splitParams hpart
    exact ⟨htrimmed.ne_nil, htrimmed.trim_eq⟩
  · have hscattered := scattered_rows (rows.map chars)
    rwa [← hsplit, ← hcs] at hscattered

end DocSignature.Header
