import DocSignature.Proofs.PlaceOrder
import DocSignature.Proofs.RegionOrder
import DocSignature.Proofs.TagMirror

/-!
# Where tags stand

A tag stands in its comment, at the offset of its place: there the source goes on with an `@` and
the name of the tag. Tags stand one behind the other, line by line in a comment and comment by
comment in a source.
-/

namespace DocSignature

open Source

namespace Tag

/-! ## The name of a tag -/

/-- The names that a tag may have, by what it says. -/
def names (tag : Tag) : List (List Char) :=
  match tag.body with
  | .imports _ _ => ["import".toList]
  | .param _ => paramNames
  | .returns _ => returnsNames
  | .other name => [name.toList]

/-- A tag keeps one of the names for what it says. -/
theorem name_mem_names_read (file : Option String) (raw : Raw) :
    raw.name ∈ (read file raw).1.names := by
  unfold read
  split
  · rename_i body hbody
    unfold readBody at hbody
    split at hbody
    · rename_i hname
      obtain ⟨clause, moduleName, rfl, -⟩ := named_of_readImport hbody
      exact List.mem_singleton.2 hname
    · split at hbody
      · rename_i hname
        rcases readParam_outcome raw with ⟨p, hread⟩ | ⟨e, hread, -⟩
        · rw [hread] at hbody
          cases hbody
          exact List.contains_iff_mem.1 hname
        · rw [hread] at hbody
          cases hbody
      · split at hbody
        · rename_i hname
          rcases readReturns_outcome raw with ⟨r, hread⟩ | ⟨e, hread, -⟩
          · rw [hread] at hbody
            cases hbody
            exact List.contains_iff_mem.1 hname
          · rw [hread] at hbody
            cases hbody
        · cases hbody
          simp [names]
  · simp [names]

/-! ## Lines and tags in order -/

/-- The lines of a comment are placed behind its start. -/
theorem before_of_bodyLines {loc : Loc} {text : List Char} {i : Nat} {l : Line}
    (h : (bodyLines loc text)[i]? = some l) : loc.Before l.loc := by
  have hline := line_of_bodyLines h
  cases i with
  | zero =>
    -- On the first line the opening mark stands in front.
    obtain ⟨first, later, hcut⟩ := exists_lines_bodyOf text
    rw [bodyLines_eq hcut] at h
    cases h
    refine .inr ⟨rfl, ?_⟩
    simp only [lineAt, Loc.forward]
    omega
  | succ i => exact .inl (by omega)

theorem bodyLines_pairwise (loc : Loc) (text : List Char) :
    (bodyLines loc text).Pairwise fun a b => a.loc.Before b.loc := by
  rw [List.pairwise_iff_getElem]
  intro i j hi hj hij
  have hline := line_of_bodyLines (List.getElem?_eq_getElem hi)
  have hline' := line_of_bodyLines (List.getElem?_eq_getElem hj)
  exact .inl (by omega)

/-- Tags are placed where some of the lines are, in the same order. -/
theorem locs_gather_sublist (ls : List Line) :
    ((gather ls).map (·.loc)).Sublist (ls.map (·.loc)) := by
  induction ls with
  | nil => exact List.Sublist.refl _
  | cons line ls ih =>
    rw [gather]
    split
    · exact ih.cons line.loc
    · exact ih.cons_cons line.loc

theorem rawTags_pairwise (loc : Loc) (text : List Char) :
    (rawTags loc text).Pairwise fun a b => a.loc.Before b.loc := by
  have hlines : ((bodyLines loc text).map (·.loc)).Pairwise Loc.Before :=
    List.pairwise_map.2 (bodyLines_pairwise loc text)
  exact List.pairwise_map.1 (hlines.sublist (locs_gather_sublist _))

/-! ## Tags in the source -/

/-- A comment stands in the part of the source that ends with it. -/
theorem standsAt_take_of_mem_docBlocks {cs : List Char} {block : DocBlock}
    (h : block ∈ docBlocks cs) : StandsAt (cs.take block.stop) block.loc block.text := by
  obtain ⟨hlt, hle, hloc, htext⟩ := bounds_of_mem_docBlocks h
  refine ⟨block.start, by rw [List.length_take]; omega, ?_, ?_⟩
  · rw [locate_take hlt.le (by omega), hloc]
  · have hslice : block.text = (cs.take block.stop).drop block.start := by
      rw [htext, slice, List.drop_take]
    exact hslice ▸ List.prefix_rfl

/-- A tag stands in its comment, with its `@` and its name. -/
theorem exists_offset_of_mem_rawTags {cs : List Char} {block : DocBlock} (h : block ∈ docBlocks cs)
    {raw : Raw} (hraw : raw ∈ rawTags block.loc block.text) :
    ∃ offset, locate cs offset = raw.loc ∧ block.start < offset ∧
      offset + ('@' :: raw.name).length ≤ block.stop ∧ '@' :: raw.name <+: cs.drop offset := by
  obtain ⟨hlt, hstop, hblock, -⟩ := bounds_of_mem_docBlocks h
  obtain ⟨-, hmark, hlength⟩ := standsAt_of_mem_docBlocks h
  obtain ⟨i, l, hi, hloc, hname, -⟩ := exists_line_of_mem_gather hraw
  have hplaced := placed_bodyLines (standsAt_take_of_mem_docBlocks h) hmark hlength hi
  obtain ⟨offset, hoffset, hplace, hword⟩ := hplaced.stands.mono (exists_of_startedName? hname).1
  rw [List.length_take, min_eq_left hstop] at hoffset
  rw [locate_take hoffset (hoffset.trans hstop)] at hplace
  have hfits := hword.length_le
  rw [List.length_drop, List.length_take, min_eq_left hstop] at hfits
  refine ⟨offset, hplace.trans hloc.symm, ?_, by omega, ?_⟩
  · have hbefore := before_of_bodyLines hi
    rw [hblock, ← hplace] at hbefore
    exact lt_of_locate_before (by omega) hbefore
  · rw [List.drop_take] at hword
    exact hword.trans (List.take_prefix _ _)

end Tag

namespace DocComment

/-- A comment of a source is one of its stretches, with the tags that its text gives. -/
theorem exists_block_of_mem_readAll {file : Option String} {cs : List Char} {comment : DocComment}
    (h : comment ∈ (readAll file cs).1) :
    ∃ block ∈ docBlocks cs, comment.start = block.start ∧ comment.stop = block.stop ∧
      comment.tags = (Tag.rawTags block.loc block.text).map fun raw => (Tag.read file raw).1 := by
  obtain ⟨found, hfound, rfl⟩ := List.mem_map.1 h
  obtain ⟨block, hblock, rfl⟩ := List.mem_map.1 hfound
  exact ⟨block, hblock, rfl, rfl, List.map_map⟩

/-- A tag stands at an offset of the source, which its place gives. It is in its comment, and the
source goes on there with an `@` and the name of the tag: the one that its text starts with, and one
for what it says. -/
structure Holds (cs : List Char) (comment : DocComment) (tag : Tag) (offset : Nat)
    (name : List Char) : Prop where
  offsetAt : offsetAt? cs tag.loc = some offset
  place : locate cs offset = tag.loc
  start : comment.start < offset
  stop : offset + ('@' :: name).length ≤ comment.stop
  started : Tag.startedName? tag.raw.toList = some name
  named : name ∈ tag.names
  word : '@' :: name <+: cs.drop offset

theorem exists_holds_of_mem_tags {file : Option String} {cs : List Char} {comment : DocComment}
    (hcomment : comment ∈ (readAll file cs).1) {tag : Tag} (htag : tag ∈ comment.tags) :
    ∃ offset name, Holds cs comment tag offset name := by
  obtain ⟨block, hblock, hstart, hstop, htags⟩ := exists_block_of_mem_readAll hcomment
  rw [htags] at htag
  obtain ⟨raw, hraw, rfl⟩ := List.mem_map.1 htag
  obtain ⟨offset, hloc, hinside, hfits, hword⟩ := Tag.exists_offset_of_mem_rawTags hblock hraw
  refine ⟨offset, raw.name, ?_, ?_, hstart ▸ hinside, hstop ▸ hfits, ?_,
    Tag.name_mem_names_read file raw, hword⟩
  · rw [Tag.loc_read, ← hloc, offsetAt?_locate]
  · rw [Tag.loc_read, hloc]
  · rw [Tag.raw_read, Tag.startedName?_of_mem_rawTags hraw]

theorem Holds.le_length {cs : List Char} {comment : DocComment} {tag : Tag} {offset : Nat}
    {name : List Char} (h : Holds cs comment tag offset name) : offset ≤ cs.length := by
  have hfits := h.word.length_le
  rw [List.length_cons, List.length_drop] at hfits
  omega

theorem tags_pairwise {file : Option String} {cs : List Char} {comment : DocComment}
    (h : comment ∈ (readAll file cs).1) :
    comment.tags.Pairwise fun a b => a.loc.Before b.loc := by
  obtain ⟨block, -, -, -, htags⟩ := exists_block_of_mem_readAll h
  rw [htags, List.pairwise_map]
  simp only [Tag.loc_read]
  exact Tag.rawTags_pairwise block.loc block.text

/-- Every tag stands in its comment, at the offset of its place, where the source goes on with an
`@` and the name of the tag. Taken over all comments, the tags stand one behind the other. -/
theorem tags_stand_at_offsets (file : Option String) (cs : List Char) :
    (∀ comment ∈ (readAll file cs).1, ∀ tag ∈ comment.tags, ∃ offset name,
      Holds cs comment tag offset name) ∧
    ((readAll file cs).1.flatMap (·.tags)).Pairwise fun a b =>
      ∃ m n, offsetAt? cs a.loc = some m ∧ offsetAt? cs b.loc = some n ∧ m < n := by
  refine ⟨fun comment hcomment tag htag => exists_holds_of_mem_tags hcomment htag, ?_⟩
  rw [List.pairwise_flatMap]
  constructor
  · intro comment hcomment
    refine (tags_pairwise hcomment).imp_of_mem fun ha hb hbefore => ?_
    obtain ⟨m, name, hm⟩ := exists_holds_of_mem_tags hcomment ha
    obtain ⟨n, name', hn⟩ := exists_holds_of_mem_tags hcomment hb
    rw [← hm.place, ← hn.place] at hbefore
    exact ⟨m, n, hm.offsetAt, hn.offsetAt, lt_of_locate_before hm.le_length hbefore⟩
  · refine (readAll_pairwise file cs).imp_of_mem fun ha hb hle tag htag tag' htag' => ?_
    obtain ⟨m, name, hm⟩ := exists_holds_of_mem_tags ha htag
    obtain ⟨n, name', hn⟩ := exists_holds_of_mem_tags hb htag'
    have hstop := hm.stop
    have hstart := hn.start
    exact ⟨m, n, hm.offsetAt, hn.offsetAt, by omega⟩

/-- Two comments. The first one has a line that it shares with other text, one without a star, an
empty one, and one with several blanks behind its star. -/
def scatteredTags : List Char :=
  "x /** @a\n\t@b-c d\n *\n *\u2003 @param \x7bA\x7d x */ /**@returns\n*/".toList

/-- The third of the four tags stands at offset 24, in the first comment. -/
theorem scatteredTags_stand_at_offsets :
    ((readAll none scatteredTags).1.flatMap (·.tags)).map
        (fun tag => offsetAt? scatteredTags tag.loc) = [some 6, some 10, some 24, some 43] ∧
    ∃ comment ∈ (readAll none scatteredTags).1, ∃ tag ∈ comment.tags,
      tag.loc = ⟨4, 5⟩ ∧ comment.start = 2 ∧ comment.stop = 39 ∧ "param".toList ∈ tag.names ∧
      "@param".toList <+: scatteredTags.drop 24 ∧
      ((readAll none scatteredTags).1.flatMap (·.tags)).Pairwise fun a b => ∃ m n,
        offsetAt? scatteredTags a.loc = some m ∧ offsetAt? scatteredTags b.loc = some n ∧
          m < n := by
  obtain ⟨hstands, hpairwise⟩ := tags_stand_at_offsets none scatteredTags
  have hfound : ∃ comment ∈ (readAll none scatteredTags).1, ∃ tag ∈ comment.tags,
      tag.loc = ⟨4, 5⟩ ∧ comment.start = 2 ∧ comment.stop = 39 ∧
      Tag.startedName? tag.raw.toList = some "param".toList := by decide +kernel
  obtain ⟨comment, hcomment, tag, htag, hloc, hstart, hstop, hname⟩ := hfound
  obtain ⟨offset, name, hholds⟩ := hstands comment hcomment tag htag
  obtain rfl : "param".toList = name := Option.some.inj (hname.symm.trans hholds.started)
  have hplace : offsetAt? scatteredTags tag.loc = some 24 := by rw [hloc]; decide +kernel
  obtain rfl : 24 = offset := Option.some.inj (hplace.symm.trans hholds.offsetAt)
  exact ⟨by decide +kernel, comment, hcomment, tag, htag, hloc, hstart, hstop, hholds.named,
    hholds.word, hpairwise⟩

end DocComment

end DocSignature
