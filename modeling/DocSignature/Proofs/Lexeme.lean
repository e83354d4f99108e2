import DocSignature.Proofs.Identifier

/-!
# The lexemes of types

A type is written with dotted names and six marks, and blanks may stand around them. A text is cut
into lexemes by taking the longest one each time, in one way at most. What the terminals of a reader
recognise at a place is the lexeme that stands there.
-/

namespace DocSignature.TypeExpr

open Grammar (Terminal isSpace dottedTail)

/-- Identifiers with dots between them. -/
@[ext]
structure DottedName where
  base : List Char
  members : List (List Char)
  isIdentifier_base : IsIdentifier base
  isIdentifier_members : ∀ m ∈ members, IsIdentifier m

/-- The name as written. -/
def DottedName.text (n : DottedName) : List Char :=
  ['.'].intercalate (n.base :: n.members)

/-- A mark of a type. -/
inductive Mark where
  | star
  | leftParen
  | rightParen
  | leftBracket
  | rightBracket
  | bar
  deriving DecidableEq

namespace Mark

def char : Mark → Char
  | star => '*'
  | leftParen => '('
  | rightParen => ')'
  | leftBracket => '['
  | rightBracket => ']'
  | bar => '|'

/-- The terminal that recognises a mark. -/
def terminal : Mark → Terminal
  | star => .star
  | leftParen => .leftParen
  | rightParen => .rightParen
  | leftBracket => .leftBracket
  | rightBracket => .rightBracket
  | bar => .bar

theorem char_injective {m m' : Mark} (h : m.char = m'.char) : m = m' := by
  revert h
  cases m <;> cases m' <;> decide

theorem isPlainNameChar_char (m : Mark) : Text.isPlainNameChar m.char = false := by
  cases m <;> decide

theorem isNameStart_char (m : Mark) : Text.isNameStart m.char = false := by
  cases m <;> decide

theorem char_ne_dot (m : Mark) : m.char ≠ '.' := by
  cases m <;> decide

theorem isBlank_char (m : Mark) : Text.isBlank m.char = false := by
  cases m <;> decide

theorem size?_terminal (m : Mark) : m.terminal.size? = Grammar.markSize? m.char := by
  cases m <;> rfl

end Mark

/-- A name or a mark. -/
inductive Lexeme where
  | name (n : DottedName)
  | mark (m : Mark)

namespace Lexeme

def text : Lexeme → List Char
  | name n => n.text
  | mark m => [m.char]

@[simp]
theorem text_name (n : DottedName) : (name n).text = n.text := rfl

@[simp]
theorem text_mark (m : Mark) : (mark m).text = [m.char] := rfl

/-- The terminal that recognises a lexeme. -/
def terminal : Lexeme → Terminal
  | name _ => .dottedName
  | mark m => m.terminal

/-- No longer lexeme stands where this one is followed by `rest`. -/
def Longest (l : Lexeme) (rest : List Char) : Prop :=
  ∀ l' : Lexeme, l'.text <+: l.text ++ rest → l'.text.length ≤ l.text.length

end Lexeme

/-- A text cut into lexemes, the longest one each time; blanks may stand between them. -/
inductive Lexed : List Char → List Lexeme → Prop
  | nil : Lexed [] []
  | space {c : Char} {cs : List Char} {ls : List Lexeme} (hc : isSpace c = true)
      (hcs : Lexed cs ls) : Lexed (c :: cs) ls
  | lexeme {l : Lexeme} {rest : List Char} {ls : List Lexeme} (hl : l.Longest rest)
      (hrest : Lexed rest ls) : Lexed (l.text ++ rest) (l :: ls)

/-! ## Dotted names -/

namespace DottedName

/-- A name starts with a character that may start one. -/
theorem exists_text_eq (n : DottedName) :
    ∃ c cs, n.text = c :: cs ∧ Text.isNameStart c = true := by
  obtain ⟨c, cs, hbase, hc, -⟩ := n.isIdentifier_base
  cases hm : n.members with
  | nil => exact ⟨c, cs, by simp [text, hm, hbase], hc⟩
  | cons m ms => exact ⟨c, _, by rw [text, hm, hbase, List.intercalate_cons_cons]; rfl, hc⟩

end DottedName

/-! ## Cutting at the dots -/

theorem cut_ne_nil (mark : Char) (cs : List Char) : Text.cut mark cs ≠ [] := by
  cases cs with
  | nil => simp [Text.cut]
  | cons c cs =>
    rw [Text.cut]
    split
    · simp
    · split <;> simp

/-- The parts of a text, put together again, are the text. -/
theorem intercalate_cut (mark : Char) (cs : List Char) :
    [mark].intercalate (Text.cut mark cs) = cs := by
  induction cs with
  | nil => rfl
  | cons c cs ih =>
    obtain ⟨part, parts, hcut⟩ := List.exists_cons_of_ne_nil (cut_ne_nil mark cs)
    rw [hcut] at ih
    rw [Text.cut, hcut]
    split
    · rename_i hc
      rw [List.intercalate_cons_cons, ih, hc]
      rfl
    · rw [← ih]
      cases parts with
      | nil => simp
      | cons next parts => simp [List.intercalate_cons_cons]

theorem cut_append {mark : Char} {xs : List Char} (hx : mark ∉ xs) {cs part : List Char}
    {parts : List (List Char)} (h : Text.cut mark cs = part :: parts) :
    Text.cut mark (xs ++ cs) = (xs ++ part) :: parts := by
  induction xs with
  | nil => exact h
  | cons x xs ih =>
    have hne : x ≠ mark := fun hc => hx (by simp [hc])
    rw [List.cons_append, Text.cut, if_neg hne, ih fun hmem => hx (by simp [hmem])]
    rfl

/-- Parts without the mark are the parts of what is put together from them. -/
theorem cut_intercalate {mark : Char} {part : List Char} {parts : List (List Char)}
    (hpart : mark ∉ part) (hparts : ∀ p ∈ parts, mark ∉ p) :
    Text.cut mark ([mark].intercalate (part :: parts)) = part :: parts := by
  induction parts generalizing part with
  | nil =>
    have hnil : Text.cut mark [] = [[]] := rfl
    simpa using cut_append hpart hnil
  | cons next parts ih =>
    have hnext := ih (hparts next (by simp)) fun p hp => hparts p (by simp [hp])
    have hmark : Text.cut mark ([mark] ++ [mark].intercalate (next :: parts)) =
        [] :: next :: parts := by
      simp [Text.cut, hnext]
    rw [List.intercalate_cons_cons, List.append_assoc, cut_append hpart hmark, List.append_nil]

namespace DottedName

theorem cut_text (n : DottedName) : Text.cut '.' n.text = n.base :: n.members := by
  have hdot {p : List Char} (hp : IsIdentifier p) : '.' ∉ p := fun hmem =>
    absurd (hp.plain '.' hmem) (by decide)
  exact cut_intercalate (hdot n.isIdentifier_base) fun p hp => hdot (n.isIdentifier_members p hp)

theorem text_injective {n n' : DottedName} (h : n.text = n'.text) : n = n' := by
  have hcut := n.cut_text
  rw [h, n'.cut_text] at hcut
  obtain ⟨hbase, hmembers⟩ := List.cons.inj hcut
  exact DottedName.ext hbase.symm hmembers.symm

end DottedName

/-! ## How far a dotted name goes -/

theorem dottedTail_cons {c : Char} (hc : Text.isPlainNameChar c = true) (cs : List Char) :
    dottedTail (c :: cs) = 1 + dottedTail cs := by
  simp [dottedTail, hc]

theorem dottedTail_dot {d : Char} (hd : Text.isNameStart d = true) (cs : List Char) :
    dottedTail ('.' :: d :: cs) = 1 + dottedTail (d :: cs) := by
  have hdot : Text.isPlainNameChar '.' = false := by decide
  simp [dottedTail, hdot, hd]

/-- Nothing of a name is left where neither a name character nor a dot stands. -/
theorem dottedTail_eq_zero {cs : List Char}
    (h : ∀ c ∈ cs.head?, Text.isPlainNameChar c = false ∧ c ≠ '.') : dottedTail cs = 0 := by
  cases cs with
  | nil => rfl
  | cons c cs =>
    obtain ⟨hc, hdot⟩ := h c rfl
    simp [dottedTail, hc, hdot]

theorem dottedTail_le_length (cs : List Char) : dottedTail cs ≤ cs.length := by
  induction cs with
  | nil => simp [dottedTail]
  | cons c cs ih =>
    simp only [dottedTail, List.length_cons]
    split
    · omega
    · split
      · split
        · split <;> omega
        · omega
      · omega

theorem dottedTail_plain {cs : List Char} (h : ∀ c ∈ cs, Text.isPlainNameChar c = true)
    (rest : List Char) : dottedTail (cs ++ rest) = cs.length + dottedTail rest := by
  induction cs with
  | nil => simp
  | cons c cs ih =>
    rw [List.cons_append, dottedTail_cons (h c (by simp)), ih fun d hd => h d (by simp [hd]),
      List.length_cons]
    omega

/-- A dotted name goes on to its end, and further if the text behind it does. -/
theorem dottedTail_joined {part : List Char} {parts : List (List Char)}
    (hpart : ∀ c ∈ part, Text.isPlainNameChar c = true) (hparts : ∀ p ∈ parts, IsIdentifier p)
    (rest : List Char) :
    dottedTail (['.'].intercalate (part :: parts) ++ rest) =
      (['.'].intercalate (part :: parts)).length + dottedTail rest := by
  induction parts generalizing part with
  | nil => simpa using dottedTail_plain hpart rest
  | cons next parts ih =>
    have hnext := hparts next (by simp)
    have ih := ih hnext.plain fun p hp => hparts p (by simp [hp])
    obtain ⟨d, ds, hd, hstart⟩ := DottedName.exists_text_eq
      ⟨next, parts, hnext, fun p hp => hparts p (by simp [hp])⟩
    rw [DottedName.text] at hd
    have hdot : dottedTail ('.' :: (['.'].intercalate (next :: parts) ++ rest)) =
        1 + dottedTail (['.'].intercalate (next :: parts) ++ rest) := by
      rw [hd, List.cons_append, dottedTail_dot hstart]
    rw [List.intercalate_cons_cons, List.append_assoc, List.append_assoc, dottedTail_plain hpart,
      List.singleton_append, hdot, ih]
    simp only [List.length_append, List.length_singleton]
    omega

/-- What is recognised where a name stands: the name, and what the text behind it adds. -/
theorem dottedNameSize?_text (n : DottedName) (rest : List Char) :
    Grammar.dottedNameSize? (n.text ++ rest) = some (n.text.length + dottedTail rest) := by
  have hall := dottedTail_joined n.isIdentifier_base.plain n.isIdentifier_members rest
  obtain ⟨c, cs, htext, hc⟩ := n.exists_text_eq
  rw [← DottedName.text, htext, List.cons_append,
    dottedTail_cons (Text.isPlainNameChar_of_isNameStart hc)] at hall
  rw [htext, List.cons_append, Grammar.dottedNameSize?, if_pos hc, hall]

/-- What is recognised as a dotted name is one. -/
theorem exists_dottedName {cs : List Char} {size : Nat}
    (h : Grammar.dottedNameSize? cs = some size) :
    ∃ n : DottedName, n.text = cs.take size ∧ n.text.length = size := by
  have hreads : (⟨.dottedName, cs.take size, .first⟩ : Grammar.Token).Reads := ⟨cs, size, h, rfl⟩
  obtain ⟨part, parts, hcut, hpart, hparts⟩ := Grammar.cut_of_dottedName hreads rfl
  have htext : ['.'].intercalate (part :: parts) = cs.take size := by
    rw [← hcut, intercalate_cut]
  refine ⟨⟨part, parts, hpart, hparts⟩, htext, ?_⟩
  rw [DottedName.text, htext, List.length_take, min_eq_left]
  cases cs with
  | nil => simp [Grammar.dottedNameSize?] at h
  | cons c cs =>
    rw [Grammar.dottedNameSize?] at h
    split at h
    · cases h
      have := dottedTail_le_length cs
      rw [List.length_cons]
      omega
    · cases h

/-! ## The longest lexeme -/

namespace Lexeme

theorem exists_text_eq (l : Lexeme) : ∃ c cs, l.text = c :: cs ∧ Text.isBlank c = false := by
  cases l with
  | name n =>
    obtain ⟨c, cs, htext, hc⟩ := n.exists_text_eq
    have hplain := Text.isPlainNameChar_of_isNameStart hc
    exact ⟨c, cs, htext, Text.isBlank_eq_false_of_isPlainNameChar hplain⟩
  | mark m => exact ⟨m.char, [], rfl, m.isBlank_char⟩

/-- No text starts with a name and with a mark. -/
theorem name_ne_mark {n : DottedName} {m : Mark} {xs ys : List Char} :
    n.text ++ xs ≠ m.char :: ys := by
  intro heq
  obtain ⟨c, cs, htext, hc⟩ := n.exists_text_eq
  rw [htext] at heq
  obtain ⟨rfl, -⟩ := List.cons.inj heq
  rw [m.isNameStart_char] at hc
  cases hc

theorem text_injective {l l' : Lexeme} (h : l.text = l'.text) : l = l' := by
  cases l with
  | name n =>
    cases l' with
    | name n' => rw [DottedName.text_injective h]
    | mark m => exact absurd (congrArg (· ++ []) h) name_ne_mark
  | mark m =>
    cases l' with
    | name n => exact absurd (congrArg (· ++ []) h.symm) name_ne_mark
    | mark m' => rw [Mark.char_injective (List.cons.inj h).1]

theorem longest_mark (m : Mark) (rest : List Char) : (mark m).Longest rest := by
  rintro (n | m') ⟨more, heq⟩
  · exact absurd heq name_ne_mark
  · exact le_rfl

theorem longest_name_iff (n : DottedName) (rest : List Char) :
    (name n).Longest rest ↔ dottedTail rest = 0 := by
  constructor
  · intro h
    obtain ⟨n', htext, hlength⟩ := exists_dottedName (dottedNameSize?_text n rest)
    have hle := h (name n') (by rw [text_name, htext]; exact List.take_prefix ..)
    rw [text_name, text_name] at hle
    omega
  · rintro hrest (n' | m) ⟨more, heq⟩
    · have hsize := dottedNameSize?_text n rest
      rw [text_name, text_name] at heq
      rw [← heq, dottedNameSize?_text, Option.some.injEq] at hsize
      rw [text_name, text_name]
      omega
    · exact absurd heq.symm name_ne_mark

/-- A longest lexeme and the text behind it are given by the whole text. -/
theorem Longest.unique {l l' : Lexeme} {rest rest' : List Char} (h : l.Longest rest)
    (h' : l'.Longest rest') (heq : l.text ++ rest = l'.text ++ rest') : l = l' ∧ rest = rest' := by
  have hle := h l' ⟨rest', heq.symm⟩
  have hge := h' l ⟨rest, heq⟩
  obtain ⟨htext, hrest⟩ := List.append_inj heq (by omega)
  exact ⟨text_injective htext, hrest⟩

/-! ## What terminals recognise -/

/-- A terminal of types. -/
def IsTerminal (t : Terminal) : Prop :=
  t = .dottedName ∨ ∃ m : Mark, t = m.terminal

theorem size?_self {l : Lexeme} {rest : List Char} (h : l.Longest rest) :
    l.terminal.size? (l.text ++ rest) = some l.text.length := by
  cases l with
  | name n =>
    rw [longest_name_iff] at h
    have hsize := dottedNameSize?_text n rest
    rwa [h] at hsize
  | mark m => simp [terminal, m.size?_terminal, Grammar.markSize?]

theorem size?_other {t : Terminal} (ht : IsTerminal t) {l : Lexeme} (hne : t ≠ l.terminal)
    (rest : List Char) : t.size? (l.text ++ rest) = none := by
  rcases ht with rfl | ⟨m', rfl⟩
  · cases l with
    | name n => exact absurd rfl hne
    | mark m => simp [Terminal.size?, Grammar.dottedNameSize?, m.isNameStart_char]
  · rw [m'.size?_terminal]
    obtain ⟨c, cs, htext, -⟩ := l.exists_text_eq
    rw [htext, List.cons_append, Grammar.markSize?, if_neg]
    rintro rfl
    cases l with
    | name n => exact name_ne_mark ((List.append_nil _).trans htext)
    | mark m =>
      have hsame := Mark.char_injective (List.cons.inj htext).1
      exact hne (congrArg Mark.terminal hsame.symm)

/-- Of some terminals of types, only that of the lexeme at a place is found there. -/
theorem firstOf?_text {ts : List Terminal} (hts : ∀ t ∈ ts, IsTerminal t) {l : Lexeme}
    {rest : List Char} (h : l.Longest rest) :
    Grammar.firstOf? ts (l.text ++ rest) =
      if l.terminal ∈ ts then some (l.terminal, l.text.length) else none := by
  induction ts with
  | nil => rfl
  | cons t ts ih =>
    have ih := ih fun t' ht' => hts t' (by simp [ht'])
    rw [Grammar.firstOf?, List.findSome?_cons]
    by_cases ht : t = l.terminal
    · subst ht
      simp [size?_self h]
    · rw [size?_other (hts t (by simp)) ht]
      rw [Grammar.firstOf?] at ih
      simpa [Ne.symm ht] using ih

/-- What a terminal of types finds is a longest lexeme. -/
theorem exists_of_size? {t : Terminal} (ht : IsTerminal t) {cs : List Char} {size : Nat}
    (h : t.size? cs = some size) :
    ∃ (l : Lexeme) (rest : List Char), cs = l.text ++ rest ∧ l.terminal = t ∧
      l.text.length = size ∧ l.Longest rest := by
  rcases ht with rfl | ⟨m, rfl⟩
  · obtain ⟨n, htext, hlength⟩ := exists_dottedName h
    have hcs : cs = n.text ++ cs.drop size := by rw [htext, List.take_append_drop]
    refine ⟨name n, cs.drop size, hcs, rfl, hlength, ?_⟩
    rw [longest_name_iff]
    rw [hcs] at h
    have hsize : Grammar.dottedNameSize? _ = some size := h
    rw [dottedNameSize?_text, Option.some.injEq] at hsize
    omega
  · rw [m.size?_terminal] at h
    cases cs with
    | nil => cases h
    | cons c cs =>
      rw [Grammar.markSize?] at h
      split at h
      · rename_i hc
        cases h
        exact ⟨mark m, cs, by rw [hc]; rfl, rfl, rfl, longest_mark m cs⟩
      · cases h

end Lexeme

/-! ## Cutting a text into lexemes -/

theorem isBlank_of_isSpace {c : Char} (h : isSpace c = true) : Text.isBlank c = true := by
  simp only [isSpace, Bool.or_eq_true, beq_iff_eq] at h
  rcases h with (((rfl | rfl) | rfl) | rfl) | rfl <;> decide

theorem Lexeme.isSpace_eq_false {c : Char} {l : Lexeme} {cs rest : List Char}
    (h : c :: cs = l.text ++ rest) : isSpace c = false := by
  obtain ⟨d, ds, htext, hd⟩ := l.exists_text_eq
  rw [htext] at h
  obtain ⟨rfl, -⟩ := List.cons.inj h
  rw [Bool.eq_false_iff]
  intro hspace
  rw [isBlank_of_isSpace hspace] at hd
  cases hd

namespace Lexed

theorem eq_nil {ls : List Lexeme} (h : Lexed [] ls) : ls = [] := by
  generalize hcs : ([] : List Char) = cs at h
  cases h with
  | nil => rfl
  | space => cases hcs
  | @lexeme l rest ls hl hrest =>
    obtain ⟨c, cs, htext, -⟩ := l.exists_text_eq
    rw [htext] at hcs
    cases hcs

theorem of_space {c : Char} {cs : List Char} {ls : List Lexeme} (h : Lexed (c :: cs) ls)
    (hc : isSpace c = true) : Lexed cs ls := by
  generalize hcs : c :: cs = xs at h
  cases h with
  | nil => cases hcs
  | space _ h =>
    cases hcs
    exact h
  | lexeme =>
    rw [Lexeme.isSpace_eq_false hcs] at hc
    cases hc

theorem of_lexeme {l : Lexeme} {rest : List Char} {ls : List Lexeme}
    (h : Lexed (l.text ++ rest) ls) (hl : l.Longest rest) :
    ∃ ls', ls = l :: ls' ∧ Lexed rest ls' := by
  generalize hcs : l.text ++ rest = xs at h
  cases h with
  | nil =>
    obtain ⟨c, cs, htext, -⟩ := l.exists_text_eq
    rw [htext] at hcs
    cases hcs
  | space hc =>
    rw [Lexeme.isSpace_eq_false hcs.symm] at hc
    cases hc
  | lexeme hl' hrest =>
    obtain ⟨rfl, rfl⟩ := hl.unique hl' hcs
    exact ⟨_, rfl, hrest⟩

/-- A text is cut into lexemes in one way only. -/
theorem unique {cs : List Char} {ls ls' : List Lexeme} (h : Lexed cs ls) (h' : Lexed cs ls') :
    ls = ls' := by
  induction h generalizing ls' with
  | nil => exact h'.eq_nil.symm
  | space hc _ ih => exact ih (h'.of_space hc)
  | lexeme hl _ ih =>
    obtain ⟨more, rfl, hmore⟩ := h'.of_lexeme hl
    rw [ih hmore]

/-- A text that is blank has no lexemes. -/
theorem eq_nil_of_allBlank {cs : List Char} {ls : List Lexeme} (h : Lexed cs ls)
    (hblank : Text.allBlank cs = true) : ls = [] := by
  induction h with
  | nil => rfl
  | space _ _ ih => exact ih (by simp_all [Text.allBlank])
  | @lexeme l _ _ _ _ _ =>
    obtain ⟨c, cs, htext, hc⟩ := l.exists_text_eq
    simp [Text.allBlank, htext, hc] at hblank

end Lexed

end DocSignature.TypeExpr
