import DocSignature.Header.Pieces
import DocSignature.Proofs.CharClass

/-!
# Pieces of a parameter list

The pieces of a text make up the text, and the closing parenthesis lies in it. A text without quotes
is cut into single characters.
-/

namespace DocSignature.Header

/-! ## A text and its pieces -/

@[simp]
theorem chars_nil : chars [] = [] := rfl

@[simp]
theorem chars_char (c : Char) (ps : List Piece) : chars (.char c :: ps) = c :: chars ps := rfl

@[simp]
theorem chars_literal (text : List Char) (ps : List Piece) :
    chars (.literal text :: ps) = text ++ chars ps := rfl

@[simp]
theorem chars_map_char (cs : List Char) : chars (cs.map .char) = cs := by
  induction cs with
  | nil => rfl
  | cons c cs ih => rw [List.map_cons, chars_char, ih]

theorem chars_append (ps qs : List Piece) : chars (ps ++ qs) = chars ps ++ chars qs :=
  List.flatMap_append

theorem chars_piecesFrom (cs : List Char) : ∀ skip, chars (piecesFrom skip cs) = cs.drop skip := by
  induction cs with
  | nil => intro skip; cases skip <;> rfl
  | cons c cs ih =>
    intro skip
    cases skip with
    | succ skip => simpa [piecesFrom] using ih skip
    | zero =>
      simp only [piecesFrom]
      split
      · simp [ih]
      · simp [ih]

/-- The pieces of a text make up the text. -/
theorem chars_pieces (cs : List Char) : chars (pieces cs) = cs :=
  chars_piecesFrom cs 0

/-- A text without quotes in front of another one is cut into single characters. -/
theorem pieces_append {xs : List Char} (hx : ∀ c ∈ xs, Source.isQuote c = false) (cs : List Char) :
    pieces (xs ++ cs) = xs.map .char ++ pieces cs := by
  induction xs with
  | nil => rfl
  | cons x xs ih =>
    have hq : Source.isQuote x = false := hx x (by simp)
    simp only [pieces, List.cons_append, piecesFrom, hq, List.map_cons]
    simpa [pieces] using ih fun c hc => hx c (by simp [hc])

theorem pieces_of_noQuote {cs : List Char} (hc : ∀ c ∈ cs, Source.isQuote c = false) :
    pieces cs = cs.map .char := by
  simpa [pieces, piecesFrom] using pieces_append hc []

/-! ## Rows of pieces in parts -/

theorem piecesFrom_eq (cs : List Char) : ∀ skip, piecesFrom skip cs = pieces (cs.drop skip) := by
  induction cs with
  | nil => intro skip; cases skip <;> rfl
  | cons c cs ih =>
    intro skip
    cases skip with
    | succ skip => exact ih skip
    | zero => rfl

theorem pieces_quote {c : Char} (hc : Source.isQuote c = true) (cs : List Char) :
    pieces (c :: cs) = .literal (c :: cs.take (literalLength c cs)) ::
      pieces (cs.drop (literalLength c cs)) := by
  simp only [pieces, piecesFrom, hc, if_true]
  rw [piecesFrom_eq, pieces]

theorem pieces_char {c : Char} (hc : Source.isQuote c = false) (cs : List Char) :
    pieces (c :: cs) = .char c :: pieces cs := by
  simp [pieces, piecesFrom, hc]

/-- The first of some pieces: a character that is no quote, or a literal from its quote on. -/
theorem cons_of_pieces {cs : List Char} {p : Piece} {ps : List Piece} (h : pieces cs = p :: ps) :
    (∃ c rest, cs = c :: rest ∧ Source.isQuote c = false ∧ p = .char c ∧ ps = pieces rest) ∨
    ∃ c rest, cs = c :: rest ∧ Source.isQuote c = true ∧
      p = .literal (c :: rest.take (literalLength c rest)) ∧
      ps = pieces (rest.drop (literalLength c rest)) := by
  cases cs with
  | nil => cases h
  | cons c rest =>
    cases hc : Source.isQuote c with
    | false =>
      rw [pieces_char hc] at h
      cases h
      exact .inl ⟨c, rest, rfl, hc, rfl, rfl⟩
    | true =>
      rw [pieces_quote hc] at h
      cases h
      exact .inr ⟨c, rest, rfl, hc, rfl, rfl⟩

/-- Pieces behind some others are those of the text behind them. -/
theorem pieces_chars_of_append {before after : List Piece} :
    ∀ {cs : List Char}, pieces cs = before ++ after → pieces (chars after) = after := by
  induction before with
  | nil => intro cs h; rw [← List.nil_append after, ← h, chars_pieces]
  | cons p before ih =>
    intro cs h
    rcases cons_of_pieces h with ⟨c, rest, -, -, -, htail⟩ | ⟨c, rest, -, -, -, htail⟩
    · exact ih htail.symm
    · exact ih htail.symm

theorem literalLength_escape (quote d : Char) (cs : List Char) :
    literalLength quote ('\\' :: d :: cs) = 2 + literalLength quote cs := by
  simp [literalLength]

theorem literalLength_cons (quote : Char) {c : Char} (hc : c ≠ '\\') (cs : List Char) :
    literalLength quote (c :: cs) = if c = quote then 1 else 1 + literalLength quote cs := by
  rw [literalLength.eq_def]
  simp only [if_neg hc]

theorem literalLength_le (quote : Char) (cs : List Char) : literalLength quote cs ≤ cs.length := by
  fun_induction literalLength quote cs with
  | case1 => exact Nat.le_refl _
  | case2 d rest ih => simp only [List.length_cons]; omega
  | case3 => simp
  | case4 cs hc => simp
  | case5 c cs hc hq ih => simp only [List.length_cons]; omega

theorem literalLength_pos (quote c : Char) (cs : List Char) :
    0 < literalLength quote (c :: cs) := by
  by_cases hc : c = '\\'
  · subst hc
    cases cs with
    | nil => exact Nat.one_pos
    | cons d cs =>
      rw [literalLength_escape]
      omega
  · rw [literalLength_cons quote hc]
    split <;> omega

/-- The length of a literal does not depend on what stands behind it. -/
theorem literalLength_append (quote : Char) (xs ys : List Char) :
    literalLength quote (xs ++ ys) ≤ xs.length →
      literalLength quote xs = literalLength quote (xs ++ ys) := by
  fun_induction literalLength quote xs with
  | case1 => intro h; exact (Nat.le_zero.1 h).symm
  | case2 d rest ih =>
    intro h
    simp only [List.cons_append, literalLength_escape, List.length_cons] at h ⊢
    rw [ih (by omega)]
  | case3 =>
    intro h
    cases ys with
    | nil => rfl
    | cons d ys =>
      simp only [List.cons_append, List.nil_append, literalLength_escape,
        List.length_singleton] at h
      omega
  | case4 cs hc =>
    intro h
    rw [List.cons_append, literalLength_cons _ hc, if_pos rfl]
  | case5 c cs hc hq ih =>
    intro h
    rw [List.cons_append, literalLength_cons _ hc, if_neg hq, List.length_cons] at h
    rw [List.cons_append, literalLength_cons _ hc, if_neg hq, ih (by omega)]

/-- Pieces in front of some others are those of the text in front. -/
theorem pieces_chars_of_prefix {before after : List Piece} :
    ∀ {cs : List Char}, pieces cs = before ++ after → pieces (chars before) = before := by
  induction before with
  | nil => intro cs _; rfl
  | cons p before ih =>
    intro cs h
    rcases cons_of_pieces h with ⟨c, rest, rfl, hc, rfl, htail⟩ | ⟨c, rest, rfl, hc, rfl, htail⟩
    · rw [chars_char, pieces_char hc, ih htail.symm]
    · -- The literal ends in front of the rest, so it is cut off alike from the shorter text.
      have hlen : (rest.take (literalLength c rest)).length = literalLength c rest :=
        List.length_take_of_le (literalLength_le c rest)
      have hrest : rest.take (literalLength c rest) ++ chars before ++ chars after = rest := by
        have hdrop : chars before ++ chars after = rest.drop (literalLength c rest) := by
          rw [← chars_append, show before ++ after = _ from htail, chars_pieces]
        rw [List.append_assoc, hdrop, List.take_append_drop]
      have hcut := literalLength_append c (rest.take (literalLength c rest) ++ chars before)
        (chars after) (by rw [hrest, List.length_append, hlen]; omega)
      rw [hrest] at hcut
      rw [chars_literal, List.cons_append, pieces_quote hc, hcut,
        List.take_left' hlen, List.drop_left' hlen, ih htail.symm]

/-- A literal among some pieces goes from its quote to where its length tells. -/
theorem literal_of_pieces {cs text : List Char} {before after : List Piece}
    (h : pieces cs = before ++ .literal text :: after) :
    ∃ quote body, text = quote :: body ∧ Source.isQuote quote = true ∧
      literalLength quote (body ++ chars after) = body.length := by
  have hself := pieces_chars_of_append h
  rcases cons_of_pieces hself with ⟨c, rest, -, -, heq, -⟩ | ⟨c, rest, hrest, hc, heq, -⟩
  · cases heq
  · cases heq
    refine ⟨c, _, rfl, hc, ?_⟩
    simp only [chars_literal, List.cons_append, List.cons.injEq, true_and] at hrest
    rw [hrest, List.length_take_of_le (literalLength_le c rest)]

/-- Where one piece starts before another, it stops before it, too. -/
theorem stop_le_of_start_lt {before before' after after' : List Piece} {p q : Piece}
    (h : before ++ p :: after = before' ++ q :: after')
    (hlt : (chars before).length < (chars before').length) :
    (chars before).length + p.chars.length ≤ (chars before').length := by
  rcases List.append_eq_append_iff.1 h with ⟨mid, rfl, hmid⟩ | ⟨mid, rfl, -⟩
  · cases mid with
    | nil => simp at hlt
    | cons r mid =>
      cases hmid
      simp [chars]
  · simp only [chars_append, List.length_append] at hlt
    omega

/-! ## Literals with a closing quote -/

/-- What follows the opening quote of a literal that is closed: single characters, and backslashes
with the character behind each, up to the first quote that is none of these. -/
inductive Terminated (quote : Char) : List Char → Prop
  | close (hescape : quote ≠ '\\') : Terminated quote [quote]
  | escape (d : Char) {cs : List Char} (hcs : Terminated quote cs) :
      Terminated quote ('\\' :: d :: cs)
  | char {c : Char} {cs : List Char} (hescape : c ≠ '\\') (hquote : c ≠ quote)
      (hcs : Terminated quote cs) : Terminated quote (c :: cs)

/-- A closed literal ends with its quote, whatever follows it. -/
theorem Terminated.literalLength_append {quote : Char} {tail : List Char}
    (h : Terminated quote tail) (rest : List Char) :
    literalLength quote (tail ++ rest) = tail.length := by
  induction h with
  | close hescape =>
    rw [List.cons_append, literalLength_cons _ hescape, if_pos rfl]
    rfl
  | escape d _ ih =>
    rw [List.cons_append, List.cons_append, literalLength_escape, ih, Nat.add_comm]
    rfl
  | char hescape hquote _ ih =>
    rw [List.cons_append, literalLength_cons _ hescape, if_neg hquote, ih, Nat.add_comm]
    rfl

/-- A literal that stops in front of some more text is closed. -/
theorem terminated_of_literalLength {quote : Char} (tail : List Char) {more : List Char}
    (hmore : more ≠ []) :
    literalLength quote (tail ++ more) = tail.length → Terminated quote tail := by
  fun_induction literalLength quote tail with
  | case1 =>
    intro h
    obtain ⟨c, more, rfl⟩ := List.exists_cons_of_ne_nil hmore
    exact absurd h (literalLength_pos quote c more).ne'
  | case2 d rest ih =>
    intro h
    simp only [List.cons_append, literalLength_escape, List.length_cons] at h
    exact .escape d (ih (by omega))
  | case3 =>
    intro h
    obtain ⟨c, more, rfl⟩ := List.exists_cons_of_ne_nil hmore
    simp only [List.cons_append, List.nil_append, literalLength_escape, List.length_singleton] at h
    omega
  | case4 cs hescape =>
    intro h
    rw [List.cons_append, literalLength_cons _ hescape, if_pos rfl, List.length_cons] at h
    obtain rfl : cs = [] := List.length_eq_zero_iff.1 (by omega)
    exact .close hescape
  | case5 c cs hescape hquote ih =>
    intro h
    rw [List.cons_append, literalLength_cons _ hescape, if_neg hquote, List.length_cons] at h
    exact .char hescape hquote (ih (by omega))

instance (quote : Char) (tail : List Char) : Decidable (Terminated quote tail) :=
  decidable_of_iff (literalLength quote (tail ++ [quote]) = tail.length)
    ⟨terminated_of_literalLength tail (List.cons_ne_nil _ _), fun h => h.literalLength_append _⟩

/-- A closed literal is one piece. -/
theorem pieces_terminated {quote : Char} (hquote : Source.isQuote quote = true) {tail : List Char}
    (h : Terminated quote tail) (rest : List Char) :
    pieces (quote :: (tail ++ rest)) = .literal (quote :: tail) :: pieces rest := by
  rw [pieces_quote hquote, h.literalLength_append, List.take_left, List.drop_left]

/-! ## The closing parenthesis -/

/-- The parenthesis that is found is one of the characters. -/
theorem closingAt?_split (ps : List Piece) :
    ∀ (depth : Int) (pos n : Nat), closingAt? depth pos ps = some n →
      ∃ before after, ps = before ++ .char ')' :: after ∧ n = pos + (chars before).length := by
  induction ps with
  | nil => intro depth pos n h; simp [closingAt?] at h
  | cons p ps ih =>
    -- Behind the first piece the search goes on at some depth.
    have later (depth : Int) (pos n : Nat)
        (h : closingAt? depth (pos + p.chars.length) ps = some n) :
        ∃ before after, p :: ps = before ++ .char ')' :: after ∧
          n = pos + (chars before).length := by
      obtain ⟨before, after, rfl, rfl⟩ := ih _ _ _ h
      refine ⟨p :: before, after, rfl, ?_⟩
      simp only [chars, List.flatMap_cons, List.length_append]
      omega
    intro depth pos n h
    cases p with
    | literal text => exact later depth pos n (by simpa [closingAt?, Piece.chars] using h)
    | char c =>
      simp only [closingAt?] at h
      split at h
      · exact later _ pos n h
      · split at h
        · split at h
          · split at h
            · rename_i hc
              cases h
              exact ⟨[], ps, by rw [hc]; rfl, rfl⟩
            · cases h
          · exact later _ pos n h
        · exact later _ pos n h

/-- The closing parenthesis stands behind the opening one, inside the text. -/
theorem closingParen?_bounds {cs : List Char} {start n : Nat}
    (h : closingParen? cs start = some n) : start ≤ n ∧ n < cs.length := by
  obtain ⟨before, after, hsplit, rfl⟩ := closingAt?_split _ _ _ _ h
  have hlen := congrArg (fun ps => (chars ps).length) hsplit
  simp only [chars_pieces, chars_append, chars_char, List.length_append, List.length_cons,
    List.length_drop] at hlen
  omega

end DocSignature.Header
