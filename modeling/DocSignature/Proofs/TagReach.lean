import DocSignature.Proofs.PatchRegion
import DocSignature.Proofs.TagPlace

/-!
# How far tags reach

A tag goes on over the lines of its text, and its names are recorded on these lines. They all lie in
the comment that holds the tag.
-/

namespace DocSignature

/-- Between lines there is one line feed less than there are lines. -/
theorem Text.count_unlines {ls : List (List Char)} (h : ∀ l ∈ ls, '\n' ∉ l) :
    (unlines ls).count '\n' = ls.length - 1 := by
  induction ls with
  | nil => rfl
  | cons first ls ih =>
    obtain ⟨hfirst, hrest⟩ := List.forall_mem_cons.1 h
    cases ls with
    | nil => simpa [unlines] using List.count_eq_zero.2 hfirst
    | cons second ls =>
      rw [unlines_cons_cons, List.count_append, List.count_eq_zero.2 hfirst, List.count_cons_self,
        ih hrest]
      simp

namespace Tag

/-! ## The lines of a tag -/

/-- The last line of the text of a tag. -/
def lastLine (tag : Tag) : Nat :=
  tag.loc.line + tag.raw.toList.count '\n'

/-- A place on one of the lines of a tag. -/
structure Covers (tag : Tag) (loc : Loc) : Prop where
  first : tag.loc.line ≤ loc.line
  last : loc.line ≤ tag.lastLine

theorem covers_of_line_eq {tag : Tag} {loc : Loc} (h : loc.line = tag.loc.line) :
    tag.Covers loc :=
  ⟨h.ge, h.le.trans (Nat.le_add_right _ _)⟩

/-- Names are counted from a place that is not behind the lead of their tag. -/
theorem line_base (tag : Tag) :
    tag.loc.line ≤ tag.base.line ∧ tag.base.line ≤ tag.loc.line + tag.lead.count '\n' := by
  unfold base
  split
  · exact ⟨le_rfl, Nat.le_add_right _ _⟩
  · rw [Source.foldl_next_line]
    exact ⟨Nat.le_add_right _ _, le_rfl⟩

/-- The names of a tag are recorded on its lines. -/
theorem MentionsWritten.covers {tag : Tag} (h : tag.MentionsWritten) {m : Mention}
    (hm : m ∈ tag.mentions) : tag.Covers m.loc := by
  obtain ⟨fragment, front, word, htext, hword⟩ := h m hm
  have hfront : tag.lead ++ front <+: tag.raw.toList :=
    ((List.prefix_append_right_inj _).2 ((List.prefix_append front word).trans hword.text)).trans
      htext
  have hcount := hfront.sublist.count_le '\n'
  rw [List.count_append] at hcount
  have hline := congrArg Loc.line hword.loc
  rw [Source.foldl_next_line] at hline
  have hbase := tag.line_base
  constructor
  · omega
  · unfold lastLine
    omega

/-! ## Tags in their comment -/

theorem plain_of_mem_bodyLines {loc : Loc} {text : List Char} {l : Line}
    (h : l ∈ bodyLines loc text) : '\n' ∉ l.text := by
  obtain ⟨first, later, hcut⟩ := exists_lines_bodyOf text
  have hplain : ∀ line ∈ first :: later, '\n' ∉ line := fun line hline =>
    Text.not_mem_of_mem_cut (hcut ▸ hline)
  have htrim (cs : List Char) : Text.trim cs ⊆ cs :=
    ((Text.trimRight_prefix _).sublist.trans (List.dropWhile_suffix _).sublist).subset
  rw [bodyLines_eq hcut] at h
  rcases List.mem_cons.1 h with rfl | h
  · exact fun hmem => hplain first List.mem_cons_self (htrim first hmem)
  · have hl := List.mem_map_of_mem (f := Line.text) h
    rw [texts_laterLines, List.map_map] at hl
    obtain ⟨line, hline, heq⟩ := List.mem_map.1 hl
    rw [← heq]
    exact fun hmem => hplain line (List.mem_cons_of_mem _ hline)
      ((undecorated_suffix line).subset (htrim _ hmem))

theorem length_bodyLines (loc : Loc) (text : List Char) :
    (bodyLines loc text).length = (bodyOf text).count '\n' + 1 := by
  obtain ⟨first, later, hcut⟩ := exists_lines_bodyOf text
  have hlater := congrArg List.length (texts_laterLines (loc.line + 1) later)
  simp only [List.length_map] at hlater
  rw [bodyLines_eq hcut, List.length_cons, hlater, ← Text.length_lines]
  exact (congrArg List.length hcut).symm

/-- The text of a tag does not go on behind the comment. -/
theorem reach_of_mem_rawTags {loc : Loc} {text : List Char} {raw : Raw}
    (h : raw ∈ rawTags loc text) :
    raw.loc.line + raw.text.count '\n' ≤ loc.line + (bodyOf text).count '\n' := by
  obtain ⟨i, l, hl, hloc, -, htext⟩ := exists_line_of_mem_gather h
  obtain ⟨hi, -⟩ := List.getElem?_eq_some_iff.1 hl
  have hbelow : (Text.unlines (((bodyLines loc text).drop i).map (·.text))).count '\n' =
      (bodyLines loc text).length - i - 1 := by
    rw [Text.count_unlines, List.length_map, List.length_drop]
    intro line hline
    obtain ⟨l', hl', rfl⟩ := List.mem_map.1 hline
    exact plain_of_mem_bodyLines (List.mem_of_mem_drop hl')
  have hcount := htext.sublist.count_le '\n'
  rw [hloc, line_of_bodyLines hl]
  rw [length_bodyLines] at hi hbelow
  omega

end Tag

/-- The lines between the marks of a comment end no later than the comment. -/
theorem Source.line_of_mem_docBlocks {cs : List Char} {block : DocBlock}
    (h : block ∈ docBlocks cs) :
    block.loc.line + (Tag.bodyOf block.text).count '\n' ≤ (locate cs (block.stop - 1)).line := by
  obtain ⟨r, hr, rfl⟩ := List.mem_map.1 h
  obtain ⟨hregion, -⟩ := List.mem_filter.1 hr
  obtain ⟨front, rest, size, rfl, hstart, hstop, hfind⟩ := Text.hitsFrom_spec _ _ _ _ r hregion
  have htwo := Patch.two_le_of_regionAt? hfind
  have hsize := Patch.regionAt?_le hfind
  rw [Nat.zero_add] at hstart
  dsimp only
  have htext : slice (front ++ rest) r.start r.stop = rest.take size := by
    rw [slice, hstop, Nat.add_sub_cancel_left, hstart, List.drop_left]
  -- the closing mark has two characters, so the lines end before the last one
  have hbody : (Tag.bodyOf (rest.take size)).Sublist (rest.take (size - 1)) := by
    have hfirst : (Tag.bodyOf (rest.take size)) <+: (rest.take (size - 1)).drop 3 := by
      rw [Tag.bodyOf, List.length_take_of_le hsize, List.drop_take, List.drop_take, List.take_take]
      exact List.take_prefix_take_left (by omega)
    exact hfirst.sublist.trans (List.drop_sublist _ _)
  have hlast : locate (front ++ rest) (r.stop - 1) =
      (front ++ rest.take (size - 1)).foldl Loc.next Loc.first := by
    have hlength : r.stop - 1 = (front ++ rest.take (size - 1)).length := by
      rw [List.length_append, List.length_take_of_le (by omega)]
      omega
    rw [hlength, ← locate_append _ (rest.drop (size - 1)), List.append_assoc,
      List.take_append_drop]
  have hcount := hbody.count_le '\n'
  rw [htext, hstart, locate_append, hlast, List.foldl_append, foldl_next_line _ (front.foldl _ _)]
  omega

namespace DocComment

/-- The line on which a comment ends. -/
def lastLine (cs : List Char) (c : DocComment) : Nat :=
  (Source.locate cs (c.stop - 1)).line

variable {file : Option String} {cs : List Char} {comment : DocComment} {tag : Tag}

/-- The tags of a comment are read from the lines of a doc comment of the source. -/
theorem exists_raw_of_mem_tags (hcomment : comment ∈ (readAll file cs).1)
    (htag : tag ∈ comment.tags) :
    ∃ block ∈ Source.docBlocks cs, block.stop = comment.stop ∧
      ∃ raw ∈ Tag.rawTags block.loc block.text, (Tag.read file raw).1 = tag := by
  obtain ⟨found, hfound, rfl⟩ := List.mem_map.1 hcomment
  obtain ⟨block, hblock, rfl⟩ := List.mem_map.1 hfound
  obtain ⟨read, hread, rfl⟩ := List.mem_map.1 htag
  obtain ⟨raw, hraw, rfl⟩ := List.mem_map.1 hread
  exact ⟨block, hblock, rfl, raw, hraw, rfl⟩

theorem mentionsWritten_of_mem_tags (hcomment : comment ∈ (readAll file cs).1)
    (htag : tag ∈ comment.tags) : tag.MentionsWritten := by
  obtain ⟨_, _, _, raw, hraw, rfl⟩ := exists_raw_of_mem_tags hcomment htag
  exact Tag.mentionsWritten_read file (Tag.started_of_mem_gather hraw)

/-- The lines of a tag lie in its comment. -/
theorem lastLine_le_of_mem_tags (hcomment : comment ∈ (readAll file cs).1)
    (htag : tag ∈ comment.tags) : tag.lastLine ≤ comment.lastLine cs := by
  obtain ⟨block, hblock, hstop, raw, hraw, rfl⟩ := exists_raw_of_mem_tags hcomment htag
  unfold Tag.lastLine lastLine
  rw [Tag.loc_read, Tag.raw_read, ← hstop]
  exact (Tag.reach_of_mem_rawTags hraw).trans (Source.line_of_mem_docBlocks hblock)

end DocComment

end DocSignature
