import DocSignature.Proofs.TagLines
import DocSignature.Proofs.TypeGrammar
import DocSignature.Proofs.TypeShape

/-!
# The places of names in tags

Every name in the type of a tag, and every name that an import brings in, is written in the source.
The place that a tag records for it is the place in the tag's own text, in which the later lines
have lost their margins; the types of tags that open behind the line of the tag are placed as if
they opened at the tag. From that place the true one follows for every tag, and both agree exactly
when the name stands on the line of its tag, or on one without a margin, and the tag opens there.
-/

namespace DocSignature

open Source (StandsAt lineOf)

/-! ## Names that a tag mentions -/

/-- A name with its recorded place, and how it may be written there. -/
structure Mention where
  loc : Loc
  spellings : List (List Char)

/-- A name in a type; the name `any` may stand for a star. -/
def TypeRef.mention (r : TypeRef) : Mention :=
  ⟨r.loc, if r.text = TypeExpr.anyName then [r.text.toList, ['*']] else [r.text.toList]⟩

/-- A name that is brought in. -/
def Specifier.mention (s : Specifier) : Mention :=
  ⟨s.loc, [s.imported.toList]⟩

namespace Tag

/-- The names that a tag mentions. -/
def mentions (tag : Tag) : List Mention :=
  match tag.body with
  | .imports (.named specifiers) _ => specifiers.map Specifier.mention
  | .imports (.whole _) _ => []
  | .param p => p.type.toList.flatMap fun e => e.refs.map TypeRef.mention
  | .returns r => r.type.toList.flatMap fun e => e.refs.map TypeRef.mention
  | .other _ => []

/-- The text of a tag up to where names can come. -/
def lead (tag : Tag) : List Char :=
  match tag.body with
  | .imports _ _ => "@import".toList
  | .param _ | .returns _ => tag.raw.toList.takeWhile (· != '{') ++ ['{']
  | .other _ => []

/-- Holds of a tag whose type opens on a later line than the tag. -/
def opensLate (tag : Tag) : Bool :=
  tag.lead.contains '\n'

/-- The place from which the places of a tag's names are counted. -/
def base (tag : Tag) : Loc :=
  if tag.opensLate then tag.loc else tag.lead.foldl Loc.next tag.loc

/-- The place in the text of a tag that is meant by a recorded place. -/
def textLoc (tag : Tag) (loc : Loc) : Loc :=
  if tag.opensLate then Loc.rebase tag.loc (tag.lead.foldl Loc.next tag.loc) loc else loc

/-- The place in the source that is meant by a recorded place: behind the margin, on all lines but
that of the tag. -/
def sourceLoc (cs : List Char) (tag : Tag) (loc : Loc) : Loc :=
  let inText := tag.textLoc loc
  inText.forward (if inText.line = tag.loc.line then 0 else margin (lineOf cs inText.line))

end Tag

/-! ## Names in a fragment -/

/-- A name that is written in a fragment, behind `front`, with its place counted from `base`. -/
structure Mention.Written (m : Mention) (fragment : List Char) (base : Loc)
    (front word : List Char) : Prop where
  spelled : word ∈ m.spellings
  plain : '\n' ∉ word
  ne_nil : word ≠ []
  text : front ++ word <+: fragment
  loc : m.loc = front.foldl Loc.next base

/-- A token that spells a name is where the name is written. -/
theorem Grammar.Token.StandsIn.written {token : Token} {fragment : List Char}
    (h : token.StandsIn fragment) (base : Loc) {spellings : List (List Char)}
    (hspelled : token.text ∈ spellings) (hplain : '\n' ∉ token.text) (hne : token.text ≠ []) :
    ∃ front word,
      (⟨base.within token.loc, spellings⟩ : Mention).Written fragment base front word := by
  obtain ⟨front, rest, size, rfl, hloc, -, htext⟩ := h
  refine ⟨front, token.text, hspelled, hplain, hne, ?_, ?_⟩
  · rw [htext]
    exact (List.prefix_append_right_inj front).2 (List.take_prefix _ _)
  · rw [hloc, Loc.within_foldl_next]

theorem Grammar.text_of_star {token : Token} (hr : token.Reads) (ht : token.terminal = .star) :
    token.text = ['*'] := by
  obtain ⟨cs, size, hsize, htext⟩ := hr
  rw [ht] at hsize
  cases cs with
  | nil => cases hsize
  | cons c cs =>
    simp only [Terminal.size?, markSize?] at hsize
    split at hsize
    · rename_i hc
      cases hsize
      rw [htext, hc]
      rfl
    · cases hsize

theorem IsIdentifier.line_feed_not_mem {name : List Char} (h : IsIdentifier name) :
    '\n' ∉ name :=
  h.not_mem (by decide)

namespace TypeExpr

theorem DottedName.line_feed_not_mem (n : DottedName) : '\n' ∉ n.text := by
  intro hmem
  rcases Text.mem_intercalate hmem with hdot | ⟨part, hpart, hmem⟩
  · simp at hdot
  · rcases List.mem_cons.1 hpart with rfl | hpart
    · exact n.isIdentifier_base.line_feed_not_mem hmem
    · exact (n.isIdentifier_members part hpart).line_feed_not_mem hmem

theorem toList_text_refOf (loc : Loc) (n : DottedName) :
    (refOf loc n.text).text.toList = n.text := by
  rw [refOf_text, TypeRef.text, String.toList_intercalate]
  simp [DottedName.text]

/-- The names in a type that was read are written in its text. -/
theorem written_of_read {base : Loc} {cs : List Char} {e : TypeExpr} (h : read base cs = .ok e) :
    e.AllRefs fun r => ∃ front word, r.mention.Written cs base front word := by
  refine allRefs_of_read h ?_ ?_
  · intro token hstands ht
    obtain ⟨rest, size, hsize, htext⟩ := hstands.reads
    rw [ht] at hsize
    obtain ⟨n, hn, -⟩ := exists_dottedName hsize
    rw [← htext] at hn
    obtain ⟨c, more, hcons, -⟩ := n.exists_text_eq
    have hspelled := toList_text_refOf (base.within token.loc) n
    rw [← hn, TypeRef.mention, hspelled, refOf_text]
    refine hstands.written base ?_ (hn ▸ n.line_feed_not_mem) ?_
    · rw [← hn]
      split <;> simp
    · rw [← hn, hcons]
      simp
  · intro token hstands ht
    have htext := Grammar.text_of_star hstands.reads ht
    refine hstands.written base ?_ (by simp [htext]) (by simp [htext])
    rw [htext, if_pos (by rfl)]
    simp

end TypeExpr

namespace Tag

/-- The names that an import brings in are written in its text. -/
theorem written_of_readImport {loc : Loc} {body : List Char} {b : TagBody}
    (h : readImport loc body = .ok b) :
    ∃ clause moduleName, b = .imports clause moduleName ∧
      clause.AllNames (fun s => ∃ front word,
        s.mention.Written body (loc.forward "@import".length) front word) fun _ => True := by
  apply allNames_of_readImport h
  · intro token hstands ht
    have hname := Grammar.isIdentifier_of_name hstands.reads ht
    refine hstands.written _ ?_ hname.line_feed_not_mem hname.ne_nil
    simp
  · intro token _ _ s hs
    exact hs
  · intro token _ _
    trivial

/-! ## Names in a tag -/

/-- The type in the braces of a tag is read from the text behind the opening brace. -/
theorem exists_of_splitType {name : List Char} {loc : Loc} {body rest : List Char} {e : TypeExpr}
    (h : splitType name loc body = .ok (some e, rest)) :
    ∃ blanks fragment more, body = blanks ++ '{' :: (fragment ++ more) ∧
      (∀ c ∈ blanks, Text.isBlank c = true) ∧
      TypeExpr.read (if blanks.contains '\n' then loc
        else loc.forward (name.length + 1 + blanks.length + 1)) fragment = .ok e := by
  simp only [splitType] at h
  split at h
  · rename_i inner hopen
    split at h
    · cases h
    · rename_i size hsize
      split at h
      · rename_i hread
        cases h
        refine ⟨body.takeWhile Text.isBlank, inner.take size, inner.drop size, ?_,
          fun c hc => List.mem_takeWhile_imp hc, hread⟩
        rw [List.take_append_drop, ← hopen]
        exact (List.prefix_iff_eq_append.1 (List.takeWhile_prefix _)).symm
      · cases h
  · cases h

/-- A tag before it is read: its text starts with its name, which fits on a line. -/
structure Raw.Started (raw : Raw) : Prop where
  plain : ∀ c ∈ raw.name, c ≠ '{' ∧ c ≠ '\n'
  text : raw.text.drop (raw.name.length + 1) ≠ [] → '@' :: raw.name <+: raw.text

theorem Raw.Started.text_eq {raw : Raw} (h : raw.Started)
    (hne : raw.text.drop (raw.name.length + 1) ≠ []) :
    raw.text = '@' :: raw.name ++ raw.text.drop (raw.name.length + 1) :=
  (List.prefix_iff_eq_append.1 (h.text hne)).symm

theorem Raw.Started.line_feed_not_mem {raw : Raw} (h : raw.Started) : '\n' ∉ '@' :: raw.name := by
  intro hmem
  rcases List.mem_cons.1 hmem with heq | hmem
  · cases heq
  · exact (h.plain _ hmem).2 rfl

/-- Neither the name of a tag nor the blanks behind it hold a brace. -/
theorem Raw.Started.takeWhile_brace {raw : Raw} (h : raw.Started) {blanks : List Char}
    (hblanks : ∀ c ∈ blanks, Text.isBlank c = true) (rest : List Char) :
    ('@' :: raw.name ++ (blanks ++ '{' :: rest)).takeWhile (· != '{') =
      '@' :: raw.name ++ blanks := by
  have hno : ∀ c ∈ '@' :: raw.name ++ blanks, (c != '{') = true := by
    intro c hc
    rw [bne_iff_ne]
    rcases List.mem_append.1 hc with hc | hc
    · rcases List.mem_cons.1 hc with rfl | hc
      · decide
      · exact (h.plain c hc).1
    · rintro rfl
      exact absurd (hblanks _ hc) (by decide)
  rw [← List.append_assoc, List.takeWhile_append_of_pos hno]
  simp

/-- Types are counted from behind their brace, unless a line feed stands before it. -/
theorem base_of_lead {tag : Tag} {name blanks : List Char} (hname : '\n' ∉ '@' :: name)
    (hlead : tag.lead = '@' :: name ++ blanks ++ ['{']) :
    tag.base = if blanks.contains '\n' then tag.loc
      else tag.loc.forward (name.length + 1 + blanks.length + 1) := by
  have hlate : tag.opensLate = blanks.contains '\n' := by
    rw [opensLate, hlead, Bool.eq_iff_iff, List.contains_iff_mem, List.contains_iff_mem,
      List.mem_append, List.mem_append]
    simp [hname]
  rw [base, hlate]
  split
  · rfl
  · rename_i hblank
    have hplain : '\n' ∉ tag.lead := by
      rw [← hlate, opensLate, List.contains_iff_mem] at hblank
      exact hblank
    rw [Loc.foldl_next_of_plain hplain, hlead]
    simp only [List.length_append, List.length_cons, List.length_nil]

/-- A tag whose names are written behind its lead. -/
def MentionsWritten (tag : Tag) : Prop :=
  ∀ m ∈ tag.mentions, ∃ fragment front word, tag.lead ++ fragment <+: tag.raw.toList ∧
    m.Written fragment tag.base front word

/-- The names in the type of a tag are written behind the brace that opens it. -/
theorem written_of_splitType {raw : Raw} (hraw : raw.Started) {tag : Tag} (hloc : tag.loc = raw.loc)
    (htag : tag.raw.toList = raw.text)
    (hlead : tag.lead = tag.raw.toList.takeWhile (· != '{') ++ ['{']) {type : Option TypeExpr}
    {rest : List Char}
    (h : splitType raw.name raw.loc (raw.text.drop (raw.name.length + 1)) = .ok (type, rest)) :
    ∀ m ∈ type.toList.flatMap fun e => e.refs.map TypeRef.mention,
      ∃ fragment front word, tag.lead ++ fragment <+: tag.raw.toList ∧
        m.Written fragment tag.base front word := by
  intro m hm
  obtain ⟨e, he, hm⟩ := List.mem_flatMap.1 hm
  obtain ⟨r, hr, rfl⟩ := List.mem_map.1 hm
  obtain rfl : type = some e := Option.mem_toList.1 he
  obtain ⟨blanks, fragment, more, hbody, hblanks, hread⟩ := exists_of_splitType h
  have htext := hraw.text_eq (by rw [hbody]; simp)
  rw [hbody] at htext
  rw [htag, htext, hraw.takeWhile_brace hblanks] at hlead
  rw [← hloc, ← base_of_lead hraw.line_feed_not_mem hlead] at hread
  obtain ⟨front, word, hwritten⟩ := TypeExpr.written_of_read hread r hr
  refine ⟨fragment, front, word, ?_, hwritten⟩
  rw [hlead, htag, htext]
  simp

/-- The names that an import brings in are written behind the name of the tag. -/
theorem written_of_importTag {raw : Raw} (hraw : raw.Started) (hname : raw.name = "import".toList)
    {tag : Tag} (hloc : tag.loc = raw.loc) (htag : tag.raw.toList = raw.text)
    (h : readImport raw.loc (raw.text.drop (raw.name.length + 1)) = .ok tag.body) :
    tag.MentionsWritten := by
  obtain ⟨clause, moduleName, hbody, hall⟩ := written_of_readImport h
  have hlead : tag.lead = "@import".toList := by rw [lead, hbody]
  have hbase : tag.base = raw.loc.forward "@import".length := by
    rw [base, opensLate, hlead, hloc]
    rfl
  have hne : raw.text.drop (raw.name.length + 1) ≠ [] := by
    intro hnil
    rw [hnil] at h
    cases h
  intro m hm
  unfold mentions at hm
  rw [hbody] at hm
  cases clause with
  | whole localName => cases hm
  | named specifiers =>
    obtain ⟨s, hs, rfl⟩ := List.mem_map.1 hm
    obtain ⟨front, word, hwritten⟩ := hall s hs
    refine ⟨_, front, word, ?_, hbase ▸ hwritten⟩
    rw [hlead, htag]
    have htext := hraw.text_eq hne
    rw [hname] at htext ⊢
    exact ⟨[], by rw [List.append_nil]; exact htext.symm⟩

/-- The names of a tag are written in its text. -/
theorem mentionsWritten_read (file : Option String) {raw : Raw} (hraw : raw.Started) :
    (read file raw).1.MentionsWritten := by
  unfold read
  split
  · rename_i hbody
    rcases readBody_cases hbody with
      ⟨hname, hread⟩ | ⟨p, rest, rfl, hsplit⟩ | ⟨r, rest, rfl, hsplit⟩ | rfl
    · exact written_of_importTag hraw hname rfl (by simp) hread
    · exact written_of_splitType hraw rfl (by simp) rfl hsplit
    · exact written_of_splitType hraw rfl (by simp) rfl hsplit
    · intro m hm
      cases hm
  · intro m hm
    cases hm

theorem loc_read (file : Option String) (raw : Raw) : (read file raw).1.loc = raw.loc := by
  unfold read
  split <;> rfl

theorem raw_read (file : Option String) (raw : Raw) :
    (read file raw).1.raw.toList = raw.text := by
  unfold read
  split <;> simp

/-! ## Tags in the lines of a comment -/

theorem exists_of_startedName? {cs name : List Char} (h : startedName? cs = some name) :
    '@' :: name <+: cs ∧ ∀ c ∈ name, c ≠ '{' ∧ c ≠ '\n' := by
  unfold startedName? at h
  split at h
  · rename_i c cs
    split at h
    · rename_i hletter
      cases h
      have hname : c :: cs.takeWhile (fun d => Text.isWordChar d || d == '-') <+: c :: cs :=
        List.cons_prefix_cons.2 ⟨rfl, List.takeWhile_prefix _⟩
      refine ⟨List.cons_prefix_cons.2 ⟨rfl, hname⟩, fun d hd => ?_⟩
      rcases List.mem_cons.1 hd with rfl | hd
      · refine ⟨?_, ?_⟩ <;> rintro rfl <;> revert hletter <;> decide
      · have hd := List.mem_takeWhile_imp hd
        refine ⟨?_, ?_⟩ <;> rintro rfl <;> revert hd <;> decide
    · cases h
  · cases h

/-- The text of a tag starts where the tag does, and goes on over the lines below. -/
theorem exists_line_of_mem_gather {ls : List Line} {raw : Raw} (h : raw ∈ gather ls) :
    ∃ i l, ls[i]? = some l ∧ raw.loc = l.loc ∧ startedName? l.text = some raw.name ∧
      raw.text <+: Text.unlines ((ls.drop i).map (·.text)) := by
  obtain ⟨i, ⟨l, hl, hloc, hname⟩, htext⟩ := exists_startsAt_of_mem_gather h
  refine ⟨i, l, hl, hloc, hname, ?_⟩
  rw [htext, List.map_drop]
  exact (Text.trimRight_prefix _).trans (Text.unlines_prefix (prefix_blockAt _ i))

theorem started_of_mem_gather {ls : List Line} {raw : Raw} (h : raw ∈ gather ls) :
    raw.Started := by
  obtain ⟨i, l, hi, -, hname, htext⟩ := exists_line_of_mem_gather h
  obtain ⟨hstart, hplain⟩ := exists_of_startedName? hname
  refine ⟨hplain, fun hne => ?_⟩
  have hline : l.text <+: Text.unlines ((ls.drop i).map (·.text)) := by
    obtain ⟨hlt, rfl⟩ := List.getElem?_eq_some_iff.1 hi
    rw [List.drop_eq_getElem_cons hlt, List.map_cons]
    have hfirst := Text.unlines_prefix
      (List.prefix_append [ls[i].text] ((ls.drop (i + 1)).map (·.text)))
    simpa [Text.unlines] using hfirst
  apply List.prefix_of_prefix_length_le (hstart.trans hline) htext
  rw [List.ne_nil_iff_length_pos, List.length_drop] at hne
  rw [List.length_cons]
  omega

/-! ## Names in the source -/

theorem textLoc_of_written {tag : Tag} {m : Mention} {fragment front word : List Char}
    (h : m.Written fragment tag.base front word) :
    tag.textLoc m.loc = (tag.lead ++ front).foldl Loc.next tag.loc := by
  rw [h.loc, List.foldl_append]
  unfold textLoc base
  split
  · rw [Loc.rebase_foldl_next]
  · rfl

/-- A name that is written in the lines of a comment stands in the source behind the margin of its
line. -/
theorem standsAt_sourceLoc {cs : List Char} {first : Nat} {ls : List Line}
    (hls : ∀ i (l : Line), ls[i]? = some l → l.Placed cs first i) {raw : Raw}
    (hraw : raw ∈ gather ls) {tag : Tag} (hloc : tag.loc = raw.loc)
    (htag : tag.raw.toList = raw.text) (hwritten : tag.MentionsWritten) {m : Mention} (hm : m ∈ tag.mentions) :
    ∃ word ∈ m.spellings, StandsAt cs (tag.sourceLoc cs m.loc) word := by
  obtain ⟨fragment, front, word, hfragment, hword⟩ := hwritten m hm
  obtain ⟨i, l, hi, hstart, -, htext⟩ := exists_line_of_mem_gather hraw
  have hplain : ∀ t ∈ (ls.drop i).map (·.text), '\n' ∉ t := by
    intro t ht
    obtain ⟨l', hl', rfl⟩ := List.mem_map.1 ht
    obtain ⟨k, hk⟩ := List.mem_iff_getElem?.1 (List.mem_of_mem_drop hl')
    exact (hls k l' hk).plain
  have hprefix : (tag.lead ++ front) ++ word <+: Text.unlines ((ls.drop i).map (·.text)) := by
    rw [List.append_assoc]
    refine (((List.prefix_append_right_inj _).2 hword.text).trans hfragment).trans ?_
    rw [htag]
    exact htext
  obtain ⟨j, t, ys, hj, hys, hwalk⟩ :=
    Text.exists_line_of_prefix hplain hword.plain hword.ne_nil hprefix
  -- the line on which the name stands, and what is left of it before the name
  rw [List.getElem?_map, List.getElem?_drop] at hj
  obtain ⟨l', hl', rfl⟩ := Option.map_eq_some_iff.1 hj
  have hplaced := hls (i + j) l' hl'
  have hys' : '\n' ∉ ys := fun hmem => hplaced.plain (hys.subset (List.mem_append_left _ hmem))
  have hstands := (hplaced.stands.mono hys).behind
  rw [Loc.foldl_next_of_plain hys'] at hstands
  refine ⟨word, hword.spelled, ?_⟩
  suffices h : tag.sourceLoc cs m.loc = l'.loc.forward ys.length by rwa [h]
  unfold sourceLoc
  rw [textLoc_of_written hword, hwalk, hloc, hstart]
  by_cases hj0 : j = 0
  · subst hj0
    obtain rfl : l = l' := by simpa [hi] using hl'
    simp [Loc.forward]
  · have hne : l'.text ≠ [] := by
      intro hnil
      rw [hnil, List.prefix_nil, List.append_eq_nil_iff] at hys
      exact hword.ne_nil hys.2
    have hother : l.loc.line + j ≠ l.loc.line := by omega
    simp only [if_neg hj0, if_neg hother]
    exact (hls i l hi).forward_margin hplaced hj0 hne ys.length

/-- The recorded place is the true one exactly when the name is on the line of its tag or on one
without a margin, in a tag that opens on its own line. -/
theorem sourceLoc_eq_iff (cs : List Char) {tag : Tag} (hwritten : tag.MentionsWritten) {m : Mention}
    (hm : m ∈ tag.mentions) :
    tag.sourceLoc cs m.loc = m.loc ↔ tag.opensLate = false ∧
      (m.loc.line = tag.loc.line ∨ margin (lineOf cs m.loc.line) = 0) := by
  cases hlate : tag.opensLate with
  | false =>
    have htext : tag.textLoc m.loc = m.loc := by simp [textLoc, hlate]
    unfold sourceLoc
    rw [htext, Loc.forward_eq_self_iff]
    by_cases hline : m.loc.line = tag.loc.line
    · simp [hline]
    · simp [hline]
  | true =>
    -- the lines of the lead are missing in the recorded place
    obtain ⟨fragment, front, word, -, hword⟩ := hwritten m hm
    have hrecorded := congrArg Loc.line hword.loc
    rw [base, hlate, if_pos rfl, Source.foldl_next_line] at hrecorded
    have hmeant := congrArg Loc.line (textLoc_of_written hword)
    rw [Source.foldl_next_line, List.count_append] at hmeant
    have hlead : 0 < tag.lead.count '\n' :=
      List.count_pos_iff.2 (List.contains_iff_mem.1 hlate)
    have hne : (tag.sourceLoc cs m.loc).line ≠ m.loc.line := by
      change (tag.textLoc m.loc).line ≠ m.loc.line
      omega
    simp only [Bool.true_eq_false, false_and, iff_false]
    intro heq
    exact hne (congrArg Loc.line heq)

end Tag

namespace DocComment

/-- Every name in the type of a tag, and every name that an import brings in, stands in the source
at the place that its recorded place stands for. The recorded place itself is that place exactly
when the tag opens on its own line and the name is on that line, too, or on a line without a
margin. -/
theorem mentions_stand_in_source (file : Option String) (cs : List Char) :
    ∀ comment ∈ (readAll file cs).1, ∀ tag ∈ comment.tags, ∀ m ∈ tag.mentions,
      (∃ word ∈ m.spellings, StandsAt cs (tag.sourceLoc cs m.loc) word) ∧
      (tag.sourceLoc cs m.loc = m.loc ↔ tag.opensLate = false ∧
        (m.loc.line = tag.loc.line ∨ Tag.margin (lineOf cs m.loc.line) = 0)) := by
  intro comment hcomment tag htag m hm
  obtain ⟨found, hfound, rfl⟩ := List.mem_map.1 hcomment
  obtain ⟨block, hblock, rfl⟩ := List.mem_map.1 hfound
  obtain ⟨read, hread, rfl⟩ := List.mem_map.1 htag
  obtain ⟨raw, hraw, rfl⟩ := List.mem_map.1 hread
  obtain ⟨hstands, hmark, hlength⟩ := Source.standsAt_of_mem_docBlocks hblock
  have hwritten := Tag.mentionsWritten_read file (Tag.started_of_mem_gather hraw)
  refine ⟨?_, Tag.sourceLoc_eq_iff cs hwritten hm⟩
  have hls (i : Nat) (l : Tag.Line) (hi : (Tag.bodyLines block.loc block.text)[i]? = some l) :
      l.Placed cs block.loc.line i := Tag.placed_bodyLines hstands hmark hlength hi
  exact Tag.standsAt_sourceLoc hls hraw (Tag.loc_read file raw) (Tag.raw_read file raw) hwritten hm

/-- A type that goes on over two lines. -/
def splitUnion : List Char := "/**\n * @param \x7bA\n *   |B\x7d x\n */".toList

/-- The second name of the type stands five columns behind its recorded place. -/
theorem splitUnion_stands_in_source :
    ∃ comment ∈ (readAll none splitUnion).1, ∃ tag ∈ comment.tags, ∃ m ∈ tag.mentions,
      m.loc = ⟨3, 2⟩ ∧ tag.sourceLoc splitUnion m.loc = ⟨3, 7⟩ ∧
        ∃ word ∈ m.spellings, StandsAt splitUnion ⟨3, 7⟩ word := by
  have hfound : ∃ comment ∈ (readAll none splitUnion).1, ∃ tag ∈ comment.tags,
      ∃ m ∈ tag.mentions, m.loc = ⟨3, 2⟩ ∧ tag.sourceLoc splitUnion m.loc = ⟨3, 7⟩ := by
    decide +kernel
  obtain ⟨comment, hcomment, tag, htag, m, hm, hloc, hsource⟩ := hfound
  have hstands := (mentions_stand_in_source none splitUnion comment hcomment tag htag m hm).1
  rw [hsource] at hstands
  exact ⟨comment, hcomment, tag, htag, m, hm, hloc, hsource, hstands⟩

/-- It does not stand at its recorded place. -/
theorem splitUnion_recorded_elsewhere :
    ∃ comment ∈ (readAll none splitUnion).1, ∃ tag ∈ comment.tags, ∃ m ∈ tag.mentions,
      ∀ word ∈ m.spellings, ¬StandsAt splitUnion m.loc word := by
  decide +kernel

end DocComment

end DocSignature
