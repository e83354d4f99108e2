import DocSignature.Proofs.ParamList
import DocSignature.Proofs.TypeShape

/-!
# Texts that are kept whole

A text is passed over as a whole when no quote or parenthesis stands in it and its brackets are
closed: a parameter list is not cut inside of it, and the closing parenthesis is not found there.
Plain characters and spelled types are such texts, and so is one such text behind another.
-/

namespace DocSignature.Header

/-! ## Cutting a list -/

/-- Holds of a character that neither nests nor separates: no quote, bracket or comma. -/
def isPlain (c : Char) : Bool :=
  !(Source.isQuote c || opens c || closes c || c == '<' || c == '>' || c == ',')

theorem isPlain_iff (c : Char) :
    isPlain c = true ↔ Source.isQuote c = false ∧ opens c = false ∧ closes c = false ∧ c ≠ '<' ∧
      c ≠ '>' ∧ c ≠ ',' := by
  simp [isPlain, and_assoc]

theorem isPlain_of_isMark {c : Char} (h : TypeText.isMark c = true) : isPlain c = true := by
  simp only [isPlain_iff, Source.isQuote, opens, closes, Bool.or_eq_false_iff,
    beq_eq_false_iff_ne, ne_eq, and_assoc]
  refine ⟨?_, ?_, ?_, ?_, ?_, ?_, ?_, ?_, ?_, ?_, ?_, ?_⟩ <;> (rintro rfl; revert h; decide)

theorem isPlain_of_isPlainNameChar {c : Char} (h : Text.isPlainNameChar c = true) :
    isPlain c = true :=
  isPlain_of_isMark (by simp [TypeText.isMark, h])

/-- Plain characters are not cut at, and the nesting stays as it is. -/
theorem uncut_plain {xs : List Char} (hx : ∀ c ∈ xs, isPlain c = true) (depth : Nat) :
    Uncut true depth (xs.map .char) ∧ nestingAfter true depth (xs.map .char) = depth := by
  induction xs with
  | nil => exact ⟨uncut_nil _ _, rfl⟩
  | cons x xs ih =>
    obtain ⟨-, ho, hc, hlt, hgt, hcomma⟩ := (isPlain_iff x).1 (hx x (by simp))
    obtain ⟨hcut, hlevel⟩ := ih fun c hc => hx c (by simp [hc])
    have hbehind : nestingBehind true depth (.char x) = depth := by
      simp [nestingBehind, ho, hc, hlt, hgt]
    rw [List.map_cons, uncut_cons, nestingAfter_cons, hbehind]
    exact ⟨⟨by simp [hcomma], hcut⟩, hlevel⟩

/-- The brackets that are due tell the nesting, and a comma stands where some are. -/
theorem nestingBehind_of_nestStep {due due' : List Char} {c : Char}
    (h : TypeText.nestStep due c = some due') :
    ((.char c : Piece) = .char ',' → 1 ≤ due.length) ∧
      nestingBehind true due.length (.char c) = due'.length := by
  rcases TypeText.nestStep_cases h with ⟨rfl, rfl⟩ | ⟨rfl, rfl⟩ | ⟨rfl | rfl, rfl⟩ |
    ⟨rfl | rfl, hd, rfl⟩ | ⟨hc, rfl⟩
  · simp [nestingBehind, opens]
  · simp [nestingBehind, opens]
  · simp [nestingBehind, opens, closes]
  · simp [nestingBehind, opens, closes]
  · exact ⟨fun _ => List.length_pos_iff.2 hd, by simp [nestingBehind, opens, closes]⟩
  · simp [nestingBehind, opens, closes]
  · obtain ⟨-, ho, hcl, hlt, hgt, hcomma⟩ := (isPlain_iff c).1 (isPlain_of_isMark hc)
    simp [nestingBehind, ho, hcl, hlt, hgt, hcomma]

/-- A nested text is not cut where brackets are due inside of it. -/
theorem uncut_nest (cs : List Char) :
    ∀ {due due'}, TypeText.nest due cs = some due' →
      Uncut true due.length (cs.map .char) ∧
        nestingAfter true due.length (cs.map .char) = due'.length := by
  induction cs with
  | nil =>
    intro due due' h
    cases h
    exact ⟨uncut_nil _ _, rfl⟩
  | cons c cs ih =>
    intro due due' h
    obtain ⟨mid, hstep, hrest⟩ := Option.bind_eq_some_iff.1 h
    obtain ⟨hcomma, hbehind⟩ := nestingBehind_of_nestStep hstep
    rw [List.map_cons, uncut_cons, nestingAfter_cons, hbehind]
    exact ⟨⟨hcomma, (ih hrest).1⟩, (ih hrest).2⟩

/-- A text that is not cut and leaves no bracket open goes to the part that follows. -/
theorem partsAt_uncut {cs : List Char}
    (h : Uncut true 0 (cs.map .char) ∧ nestingAfter true 0 (cs.map .char) = 0) (ps : List Piece) :
    partsAt true 0 (cs.map .char ++ ps) = prepend cs (partsAt true 0 ps) := by
  rw [partsAt_append h.1, h.2, chars_map_char]

/-! ## Finding the closing parenthesis -/

theorem closingAt?_plain {xs : List Char} (hx : ∀ c ∈ xs, opens c = false ∧ closes c = false)
    (depth : Int) (pos : Nat) (ps : List Piece) :
    closingAt? depth pos (xs.map .char ++ ps) = closingAt? depth (pos + xs.length) ps := by
  induction xs generalizing pos with
  | nil => rfl
  | cons x xs ih =>
    obtain ⟨ho, hc⟩ := hx x (by simp)
    simp only [List.map_cons, List.cons_append, closingAt?, ho, hc, List.length_cons]
    rw [← Nat.add_assoc, Nat.add_right_comm]
    exact ih (fun c hc => hx c (by simp [hc])) (pos + 1)

/-- Inside of a parenthesis, the brackets of a nested text only go up and down again. Angle brackets
do not count here, square ones do. -/
theorem closingAt?_nest (cs : List Char) (ps : List Piece) (base : Nat) :
    ∀ {due due'}, TypeText.nest due cs = some due' → ∀ pos,
      closingAt? (base + 1 + due.count ']') pos (cs.map .char ++ ps) =
        closingAt? (base + 1 + due'.count ']') (pos + cs.length) ps := by
  induction cs with
  | nil =>
    intro due due' h pos
    cases h
    rfl
  | cons c cs ih =>
    intro due due' h pos
    obtain ⟨mid, hstep, hrest⟩ := Option.bind_eq_some_iff.1 h
    have ih := ih hrest (pos + 1)
    rw [Nat.add_right_comm, Nat.add_assoc] at ih
    simp only [List.map_cons, List.cons_append, List.length_cons, ← ih, closingAt?]
    rcases TypeText.nestStep_cases hstep with ⟨rfl, rfl⟩ | ⟨rfl, rfl⟩ | ⟨rfl | rfl, rfl⟩ |
      ⟨rfl | rfl, hd, rfl⟩ | ⟨hc, rfl⟩
    · simp [opens, Int.add_assoc]
    · simp [opens, closes]
    · have hne : (base : Int) + 1 + mid.count ']' ≠ 0 := by omega
      have heq : (base : Int) + 1 + (mid.count ']' + 1) - 1 = base + 1 + mid.count ']' := by omega
      simp [opens, closes, hne, heq]
    · simp [opens, closes]
    · simp [opens, closes]
    · simp [opens, closes]
    · obtain ⟨-, ho, hcl, -, -, -⟩ := (isPlain_iff c).1 (isPlain_of_isMark hc)
      simp [ho, hcl]

/-! ## Level and whole texts -/

/-- A text in which no parenthesis is opened or closed, and every bracket is closed again. -/
structure Level (cs : List Char) : Prop where
  quote : ∀ c ∈ cs, Source.isQuote c = false
  paren : '(' ∉ cs
  closing : ∀ (depth : Nat) (pos : Nat) (ps : List Piece),
    closingAt? (depth + 1) pos (cs.map .char ++ ps) = closingAt? (depth + 1) (pos + cs.length) ps

/-- A level text that a list is not cut in. -/
structure Whole (cs : List Char) : Prop extends Level cs where
  parts : ∀ ps, partsAt true 0 (cs.map .char ++ ps) = prepend cs (partsAt true 0 ps)

theorem level_of_noBracket {cs : List Char}
    (h : ∀ c ∈ cs, Source.isQuote c = false ∧ opens c = false ∧ closes c = false) : Level cs where
  quote c hc := (h c hc).1
  paren hc := by simpa [opens] using (h '(' hc).2.1
  closing depth pos ps := closingAt?_plain (fun c hc => (h c hc).2) _ pos ps

theorem whole_of_plain {cs : List Char} (h : ∀ c ∈ cs, isPlain c = true) : Whole cs where
  toLevel := by
    apply level_of_noBracket
    intro c hc
    obtain ⟨hq, ho, hcl, -⟩ := (isPlain_iff c).1 (h c hc)
    exact ⟨hq, ho, hcl⟩
  parts := partsAt_uncut (uncut_plain h 0)

theorem whole_of_spelled {cs : List Char} (h : TypeText.Spelled cs) : Whole cs where
  quote c hc := by
    rcases TypeText.mem_of_nest cs h.2 c hc with hc | hc
    · have hmarks : ∀ c ∈ "[]<>, ".toList, Source.isQuote c = false :=
        Text.forall_mem_of_all (by decide)
      exact hmarks c hc
    · exact ((isPlain_iff c).1 (isPlain_of_isMark hc)).1
  paren hc := by
    rcases TypeText.mem_of_nest cs h.2 _ hc with hc | hc
    · exact absurd hc (by decide)
    · exact absurd hc (by decide)
  closing depth pos ps := by simpa using closingAt?_nest cs ps depth h.2 pos
  parts := partsAt_uncut (uncut_nest cs h.2)

theorem Level.append {xs ys : List Char} (hx : Level xs) (hy : Level ys) : Level (xs ++ ys) where
  quote c hc := (List.mem_append.1 hc).elim (hx.quote c) (hy.quote c)
  paren hc := (List.mem_append.1 hc).elim hx.paren hy.paren
  closing depth pos ps := by
    rw [List.map_append, List.append_assoc, hx.closing, hy.closing, List.length_append,
      Nat.add_assoc]

theorem Whole.append {xs ys : List Char} (hx : Whole xs) (hy : Whole ys) : Whole (xs ++ ys) where
  toLevel := hx.toLevel.append hy.toLevel
  parts ps := by
    rw [List.map_append, List.append_assoc, hx.parts, hy.parts, prepend_prepend]

/-! ## Lists of whole texts -/

theorem level_joined {texts : List (List Char)} (h : ∀ text ∈ texts, Level text) :
    Level (joined texts) := by
  induction texts with
  | nil => exact level_of_noBracket (by simp [joined])
  | cons text texts ih =>
    have ih := ih fun t ht => h t (by simp [ht])
    cases texts with
    | nil => simpa [joined] using h text (by simp)
    | cons next texts =>
      have hsep : Level [',', ' '] := level_of_noBracket (Text.forall_mem_of_all (by decide))
      rw [joined_cons_cons]
      exact (h text (by simp)).append (hsep.append ih)

theorem Whole.undivided {cs : List Char} (h : Whole cs) : Undivided true cs := by
  intro rest
  rw [pieces_append h.quote, h.parts]

/-- Trimmed whole texts are read back from the list they are joined to. -/
theorem splitParams_joined {texts : List (List Char)}
    (h : ∀ text ∈ texts, Whole text ∧ Text.Trimmed text) :
    splitParams true (joined texts) = texts :=
  splitParams_of_undivided fun text ht => ⟨(h text ht).1.undivided, (h text ht).2⟩

end DocSignature.Header
