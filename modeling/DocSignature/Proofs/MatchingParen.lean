import DocSignature.Proofs.Pieces

/-!
# Matching parentheses

All kinds of brackets are counted together when the end of a parameter list is looked for. In a text
whose brackets are nested as they should be, and whose literals are closed, the count comes back to
where it was, so that the parenthesis found is the one that matches.
-/

namespace DocSignature.Header

/-- The brackets that open, each with the one that closes it. -/
def bracketPairs : List (Char × Char) :=
  [('(', ')'), ('[', ']'), ('{', '}')]

/-- A text of closed literals, bracketed texts of this kind, and characters that are no quotes and
no brackets. -/
inductive Nested : List Char → Prop
  | nil : Nested []
  | char {c : Char} {cs : List Char} (hquote : Source.isQuote c = false) (hopens : opens c = false)
      (hcloses : closes c = false) (hcs : Nested cs) : Nested (c :: cs)
  | literal {quote : Char} {tail cs : List Char} (hquote : Source.isQuote quote = true)
      (htail : Terminated quote tail) (hcs : Nested cs) : Nested (quote :: (tail ++ cs))
  | bracket {opening closing : Char} {inner cs : List Char}
      (hpair : (opening, closing) ∈ bracketPairs) (hinner : Nested inner) (hcs : Nested cs) :
      Nested (opening :: (inner ++ closing :: cs))

theorem of_mem_bracketPairs {opening closing : Char} (h : (opening, closing) ∈ bracketPairs) :
    (Source.isQuote opening = false ∧ opens opening = true) ∧
      Source.isQuote closing = false ∧ opens closing = false ∧ closes closing = true := by
  simp only [bracketPairs, List.mem_cons, List.not_mem_nil, or_false, Prod.mk.injEq] at h
  rcases h with ⟨rfl, rfl⟩ | ⟨rfl, rfl⟩ | ⟨rfl, rfl⟩ <;> decide

/-! ## One piece -/

section Step
variable {c : Char} (depth : Int) (pos : Nat) (ps : List Piece)

theorem closingAt?_opens (h : opens c = true) :
    closingAt? depth pos (.char c :: ps) = closingAt? (depth + 1) (pos + 1) ps := by
  simp [closingAt?, h]

theorem closingAt?_closes (ho : opens c = false) (hc : closes c = true) (hdepth : depth ≠ 0) :
    closingAt? (depth + 1) pos (.char c :: ps) = closingAt? depth (pos + 1) ps := by
  simp [closingAt?, ho, hc, hdepth]

theorem closingAt?_other (ho : opens c = false) (hc : closes c = false) :
    closingAt? depth pos (.char c :: ps) = closingAt? depth (pos + 1) ps := by
  simp [closingAt?, ho, hc]

end Step

/-! ## A nested text -/

/-- Inside of a bracket a nested text is passed over. -/
theorem Nested.closingAt?_pieces {cs : List Char} (h : Nested cs) :
    ∀ (depth pos : Nat) (rest : List Char),
      closingAt? (depth + 1) pos (pieces (cs ++ rest)) =
        closingAt? (depth + 1) (pos + cs.length) (pieces rest) := by
  induction h with
  | nil => intro depth pos rest; rfl
  | char hquote hopens hcloses _ ih =>
    intro depth pos rest
    rw [List.cons_append, pieces_char hquote, closingAt?_other _ _ _ hopens hcloses, ih,
      List.length_cons, Nat.add_right_comm, Nat.add_assoc]
  | literal hquote htail _ ih =>
    intro depth pos rest
    rw [List.cons_append, List.append_assoc, pieces_terminated hquote htail, closingAt?, ih]
    simp only [List.length_cons, List.length_append]
    congr 1
    omega
  | @bracket opening closing inner cs hpair _ _ ihinner ih =>
    intro depth pos rest
    obtain ⟨⟨hoquote, hopens⟩, hcquote, hnopens, hcloses⟩ := of_mem_bracketPairs hpair
    -- One deeper inside of the bracket, and back again behind it.
    have hdeeper := ihinner (depth + 1) (pos + 1) (closing :: (cs ++ rest))
    rw [Int.natCast_succ] at hdeeper
    rw [List.cons_append, List.append_assoc, List.cons_append, pieces_char hoquote,
      closingAt?_opens _ _ _ hopens, hdeeper, pieces_char hcquote,
      closingAt?_closes _ _ _ hnopens hcloses (by omega), ih]
    simp only [List.length_cons, List.length_append]
    congr 1
    omega

/-- The index of what is found in the text from `start` on. -/
theorem closingIndex?_of_drop {cs : List Char} {start n : Nat}
    (h : closingAt? 0 0 (pieces (cs.drop start)) = some n) :
    closingIndex? cs start = some (some ((start + n : Nat) : Int)) := by
  simp [closingIndex?, readFrom?, closingParen?, h]

/-- A parenthesis is closed behind the nested text that follows it, whatever stands before it and
behind its end. -/
theorem closingIndex?_of_nested (front content rest : List Char) (h : Nested content) :
    closingIndex? (front ++ '(' :: (content ++ ')' :: rest)) front.length =
      some (some ((front.length + 1 + content.length : Nat) : Int)) := by
  rw [Nat.add_assoc]
  apply closingIndex?_of_drop
  have hpassed := h.closingAt?_pieces 0 1 (')' :: rest)
  rw [pieces_char (by decide)] at hpassed
  rw [List.drop_left, pieces_char (by decide), closingAt?_opens _ _ _ (by decide)]
  exact hpassed

/-- Brackets of all kinds around two literals, one with an escaped quote and one with a line end in
it. -/
def mixedNesting : List Char :=
  ['[', '{', '\'', '\\', '\'', ')', '\'', '}', ']', '(', '`', ']', '\n', '`', ')']

/-- The parentheses in the literals, and the one behind the end, are not taken for the end. -/
theorem closingIndex?_of_mixedNesting :
    Nested mixedNesting ∧
      closingIndex? (['f'] ++ '(' :: (mixedNesting ++ ')' :: [' ', ')'])) 1 = some (some 17) := by
  have hbraces : Nested ['{', '\'', '\\', '\'', ')', '\'', '}'] :=
    @Nested.bracket '{' '}' ['\'', '\\', '\'', ')', '\''] [] (by decide)
      (@Nested.literal '\'' ['\\', '\'', ')', '\''] [] (by decide) (by decide) .nil) .nil
  have hparens : Nested ['(', '`', ']', '\n', '`', ')'] :=
    @Nested.bracket '(' ')' ['`', ']', '\n', '`'] [] (by decide)
      (@Nested.literal '`' [']', '\n', '`'] [] (by decide) (by decide) .nil) .nil
  have hnested : Nested mixedNesting :=
    @Nested.bracket '[' ']' _ _ (by decide) hbraces hparens
  exact ⟨hnested, closingIndex?_of_nested ['f'] mixedNesting [' ', ')'] hnested⟩

end DocSignature.Header
