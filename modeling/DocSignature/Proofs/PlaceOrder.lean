import DocSignature.Proofs.Place

/-!
# Places in order

Places are ordered by line, and by column on the same line. Every character leads to a later place,
so places of a text come in the order of their offsets, and the offset can be told from the place:
it is the start of the line and the columns in front of the place. Past its end a text has places as
if blanks went on there.
-/

namespace DocSignature.Loc

/-- The order of places: by line, and by column on the same line. -/
def Before (a b : Loc) : Prop :=
  a.line < b.line ∨ a.line = b.line ∧ a.column < b.column

instance (a b : Loc) : Decidable (a.Before b) :=
  inferInstanceAs (Decidable (_ ∨ _))

theorem Before.trans {a b c : Loc} (hab : a.Before b) (hbc : b.Before c) : a.Before c := by
  unfold Before at *
  omega

theorem not_before_self (loc : Loc) : ¬loc.Before loc := by
  unfold Before
  omega

theorem before_next (loc : Loc) (c : Char) : loc.Before (loc.next c) := by
  unfold next
  split
  · exact .inl (Nat.lt_succ_self _)
  · exact .inr ⟨rfl, Nat.lt_succ_self _⟩

/-- One gets to a later place through any characters. -/
theorem before_foldl_next {xs : List Char} (h : xs ≠ []) (loc : Loc) :
    loc.Before (xs.foldl next loc) := by
  induction xs generalizing loc with
  | nil => exact absurd rfl h
  | cons x xs ih =>
    rw [List.foldl_cons]
    cases xs with
    | nil => exact before_next loc x
    | cons y ys => exact (before_next loc x).trans (ih (by simp) _)

end DocSignature.Loc

namespace DocSignature.Source

/-! ## Places and offsets in the same order -/

theorem locate_eq_foldl {cs : List Char} {offset : Nat} (h : offset ≤ cs.length) :
    locate cs offset = (cs.take offset).foldl Loc.next .first := by
  have hloc := locate_append (cs.take offset) (cs.drop offset)
  rwa [List.take_append_drop, List.length_take, min_eq_left h] at hloc

/-- The place of an offset does not depend on what follows behind it. -/
theorem locate_take {cs : List Char} {offset stop : Nat} (hstop : offset ≤ stop)
    (hlength : offset ≤ cs.length) : locate (cs.take stop) offset = locate cs offset := by
  rw [locate_eq_foldl hlength, locate_eq_foldl (by rw [List.length_take]; omega), List.take_take,
    min_eq_left hstop]

theorem locate_before {cs : List Char} {a b : Nat} (hab : a < b) (hb : b ≤ cs.length) :
    (locate cs a).Before (locate cs b) := by
  have hsplit : cs.take b = cs.take a ++ (cs.take b).drop a := by
    conv => lhs; rw [← List.take_append_drop a (cs.take b), List.take_take, min_eq_left hab.le]
  have hne : (cs.take b).drop a ≠ [] := by
    rw [List.ne_nil_iff_length_pos, List.length_drop, List.length_take]
    omega
  rw [locate_eq_foldl hb, hsplit, List.foldl_append, ← locate_eq_foldl (by omega)]
  exact Loc.before_foldl_next hne _

theorem lt_of_locate_before {cs : List Char} {a b : Nat} (ha : a ≤ cs.length)
    (h : (locate cs a).Before (locate cs b)) : a < b := by
  rcases Nat.lt_trichotomy a b with hlt | rfl | hlt
  · exact hlt
  · exact absurd h (Loc.not_before_self _)
  · exact absurd (h.trans (locate_before hlt ha)) (Loc.not_before_self _)

/-! ## Back to the offset -/

/-- The offset of a place: the start of its line, and the columns in front of it. -/
def offsetAt? (cs : List Char) (loc : Loc) : Option Nat :=
  (Text.lineStarts cs)[loc.line - 1]?.map fun start => start + loc.column - 1

/-- The offset of the place of an offset is that offset. -/
theorem offsetAt?_locate (cs : List Char) (offset : Nat) :
    offsetAt? cs (locate cs offset) = some offset := by
  have hprefix : (Text.lineStarts cs).takeWhile (· ≤ offset) <+: Text.lineStarts cs :=
    List.takeWhile_prefix _
  -- The first line starts no later than any offset, so one of the lines is the last to do so.
  have hne : (Text.lineStarts cs).takeWhile (· ≤ offset) ≠ [] := by simp [Text.lineStarts]
  obtain ⟨start, hlast⟩ := Option.isSome_iff_exists.1 (List.getLast?_isSome.2 hne)
  have hle : start ≤ offset := by
    simpa using List.mem_takeWhile_imp (List.mem_of_getLast? hlast)
  have hstart : (Text.lineStarts cs)[(locate cs offset).line - 1]? = some start := by
    rw [List.getLast?_eq_getElem?] at hlast
    obtain ⟨hlt, rfl⟩ := List.getElem?_eq_some_iff.1 hlast
    exact List.prefix_iff_getElem?.1 hprefix _ hlt
  have hcolumn : (locate cs offset).column = offset - start + 1 := by
    simp [locate, locateIn, hlast]
  rw [offsetAt?, hstart, hcolumn, Option.map_some]
  congr 1
  omega

/-! ## Offsets past the end -/

theorem startsAfter_replicate (n : Nat) :
    ∀ pos, Text.startsAfter pos (List.replicate n ' ') = [] := by
  induction n with
  | zero => intro pos; rfl
  | succ n ih =>
    intro pos
    rw [List.replicate_succ, Text.startsAfter, if_neg (by decide), ih]

/-- Blanks behind a text do not move its places: an offset past the end lies on the last line. -/
theorem locate_append_replicate (cs : List Char) (n offset : Nat) :
    locate (cs ++ List.replicate n ' ') offset = locate cs offset := by
  rw [locate, lineStarts_append, startsAfter_replicate, List.append_nil, locate]

/-- The line of an offset is one more than the line feeds in front of it. -/
theorem line_locate (cs : List Char) (offset : Nat) :
    (locate cs offset).line = 1 + (cs.take offset).count '\n' := by
  rw [← locate_append_replicate cs offset, locate_eq_foldl (by simp), foldl_next_line,
    List.take_append, List.take_replicate, List.count_append, List.count_replicate]
  rfl

/-- Later offsets have later places. -/
theorem locate_before_iff (cs : List Char) (a b : Nat) :
    (locate cs a).Before (locate cs b) ↔ a < b := by
  rw [← locate_append_replicate cs (max a b) a, ← locate_append_replicate cs (max a b) b]
  constructor
  · exact lt_of_locate_before (by simp; omega)
  · exact fun hab => locate_before hab (by simp; omega)

/-! ## The line that is found -/

theorem startsAfter_pairwise (cs : List Char) :
    ∀ pos, (Text.startsAfter pos cs).Pairwise (· < ·) := by
  induction cs with
  | nil => intro pos; exact List.Pairwise.nil
  | cons c cs ih =>
    intro pos
    rw [Text.startsAfter]
    split
    · exact List.pairwise_cons.2 ⟨fun n hn => (startsAfter_bounds cs (pos + 1) n hn).1, ih _⟩
    · exact ih _

theorem lineStarts_pairwise (cs : List Char) : (Text.lineStarts cs).Pairwise (· < ·) :=
  List.pairwise_cons.2 ⟨fun n hn => (startsAfter_bounds cs 0 n hn).1, startsAfter_pairwise cs 0⟩

theorem lt_of_mem_dropWhile {starts : List Nat} (h : starts.Pairwise (· < ·)) {offset start : Nat}
    (hstart : start ∈ starts.dropWhile (· ≤ offset)) : offset < start := by
  have hsorted := h.sublist (List.dropWhile_sublist (· ≤ offset))
  have hhead := starts.head?_dropWhile_not (· ≤ offset)
  cases hlater : starts.dropWhile (· ≤ offset) with
  | nil =>
    rw [hlater] at hstart
    cases hstart
  | cons first rest =>
    rw [hlater] at hstart hhead hsorted
    have hfirst : offset < first := by simpa using hhead
    rcases List.mem_cons.1 hstart with rfl | hstart
    · exact hfirst
    · exact hfirst.trans ((List.pairwise_cons.1 hsorted).1 start hstart)

/-- The line of an offset parts the starts of lines: those up to it lie no later than the offset,
and those behind it lie later. -/
theorem line_parts_lineStarts (cs : List Char) (offset : Nat) :
    (∀ start ∈ (Text.lineStarts cs).take (locate cs offset).line, start ≤ offset) ∧
      ∀ start ∈ (Text.lineStarts cs).drop (locate cs offset).line, offset < start := by
  have hline : (locate cs offset).line = ((Text.lineStarts cs).takeWhile (· ≤ offset)).length := rfl
  have hsplit := List.takeWhile_append_dropWhile (p := (· ≤ offset)) (l := Text.lineStarts cs)
  have hfront : ∀ start ∈ (Text.lineStarts cs).takeWhile (· ≤ offset), start ≤ offset :=
    fun start hstart => by simpa using List.mem_takeWhile_imp hstart
  have hback : ∀ start ∈ (Text.lineStarts cs).dropWhile (· ≤ offset), offset < start :=
    fun start => lt_of_mem_dropWhile (lineStarts_pairwise cs)
  rw [hline]
  generalize (Text.lineStarts cs).takeWhile (· ≤ offset) = front at hsplit hfront ⊢
  generalize (Text.lineStarts cs).dropWhile (· ≤ offset) = back at hsplit hback
  rw [← hsplit, List.take_left, List.drop_left]
  exact ⟨hfront, hback⟩

/-- The place of an offset is exact, also past the end of the text. Its line is the one that the
starts of lines give and one more than the line feeds in front of it, its column counts from the
start of that line, and places come in the order of their offsets. -/
theorem locate_is_exact (cs : List Char) :
    (∀ offset,
      ((∀ start ∈ (Text.lineStarts cs).take (locate cs offset).line, start ≤ offset) ∧
        ∀ start ∈ (Text.lineStarts cs).drop (locate cs offset).line, offset < start) ∧
      (locate cs offset).line = 1 + (cs.take offset).count '\n' ∧
      1 ≤ (locate cs offset).column ∧
      ∃ start, (Text.lineStarts cs)[(locate cs offset).line - 1]? = some start ∧
        start + (locate cs offset).column - 1 = offset) ∧
    ∀ a b, (locate cs a).Before (locate cs b) ↔ a < b := by
  refine ⟨fun offset => ⟨line_parts_lineStarts cs offset, line_locate cs offset, ?_, ?_⟩,
    locate_before_iff cs⟩
  · exact Nat.le_add_left _ _
  · simpa [offsetAt?] using offsetAt?_locate cs offset

end DocSignature.Source
