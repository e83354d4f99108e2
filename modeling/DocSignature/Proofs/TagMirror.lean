import DocSignature.Proofs.TagPlace

/-!
# Tags mirror their comment

A comment has one tag for each line that starts one, in order. One diagnostic stands for each tag
that has the name of a meaning but cannot be read, and it is about the line of the tag. A tag comes
from its own text alone, so a faulty one does no harm to the others.
-/

namespace DocSignature.Tag

/-! ## Tags that cannot be read -/

/-- The names of the tags that have a meaning. -/
def meaningfulNames : List String :=
  ["import", "param", "arg", "argument", "returns", "return"]

/-- Holds of a tag without a meaning whose name has one. -/
def isUnread (tag : Tag) : Bool :=
  match tag.body with
  | .other name => meaningfulNames.contains name
  | _ => false

/-- The diagnostic about a tag that cannot be read. -/
structure Reports (tag : Tag) (d : Diagnostic) : Prop where
  kind : d.kind = .malformedTag
  line : d.span.line = some (tag.loc.line : Int)

theorem mem_meaningfulNames_iff (name : List Char) :
    String.ofList name ∈ meaningfulNames ↔
      name = "import".toList ∨ name ∈ paramNames ∨ name ∈ returnsNames := by
  have hnames : meaningfulNames =
      ("import".toList :: paramNames ++ returnsNames).map String.ofList := by decide
  rw [hnames, List.mem_map_of_injective fun _ _ => String.ofList_injective]
  simp

theorem line_of_splitType {name : List Char} {loc : Loc} {body : List Char} {e : TagError}
    (h : splitType name loc body = .error e) : e.loc.line = loc.line := by
  simp only [splitType] at h
  split at h
  · split at h
    · cases h
      rfl
    · split at h
      · cases h
      · cases h
        dsimp only
        split <;> rfl
  · cases h

section Outcome
variable (raw : Raw)

theorem readImport_outcome (loc : Loc) (body : List Char) :
    (∃ clause moduleName, readImport loc body = .ok (.imports clause moduleName)) ∨
      ∃ e, readImport loc body = .error e ∧ e.loc = loc := by
  unfold readImport
  split
  · exact .inr ⟨_, rfl, rfl⟩
  · split
    · exact .inr ⟨_, rfl, rfl⟩
    · split
      · exact .inr ⟨_, rfl, rfl⟩
      · split
        · exact .inr ⟨_, rfl, rfl⟩
        · exact .inl ⟨_, _, rfl⟩

theorem readParam_outcome : (∃ p, readParam raw = .ok (.param p)) ∨
    ∃ e, readParam raw = .error e ∧ e.loc.line = raw.loc.line := by
  unfold readParam
  split
  · rename_i e hsplit
    exact .inr ⟨e, rfl, line_of_splitType hsplit⟩
  · split
    · exact .inr ⟨_, rfl, rfl⟩
    · exact .inl ⟨_, rfl⟩

theorem readReturns_outcome : (∃ r, readReturns raw = .ok (.returns r)) ∨
    ∃ e, readReturns raw = .error e ∧ e.loc.line = raw.loc.line := by
  unfold readReturns
  split
  · rename_i e hsplit
    exact .inr ⟨e, rfl, line_of_splitType hsplit⟩
  · exact .inl ⟨_, rfl⟩

/-- A tag is read, and has no meaning only if its name has none, or it has the name of a meaning
and there is a problem on its line. -/
theorem readBody_outcome :
    (∃ body, readBody raw = .ok body ∧ ∀ name, body = .other name → name ∉ meaningfulNames) ∨
      ∃ e, readBody raw = .error e ∧ e.loc.line = raw.loc.line ∧
        String.ofList raw.name ∈ meaningfulNames := by
  rw [mem_meaningfulNames_iff]
  unfold readBody
  split
  · rename_i hname
    rcases readImport_outcome raw.loc (raw.text.drop (raw.name.length + 1)) with
      ⟨clause, moduleName, hread⟩ | ⟨e, hread, hloc⟩
    · exact .inl ⟨_, hread, fun name heq => by cases heq⟩
    · exact .inr ⟨e, hread, congrArg Loc.line hloc, .inl hname⟩
  · rename_i himport
    split
    · rename_i hname
      rcases readParam_outcome raw with ⟨p, hread⟩ | ⟨e, hread, hline⟩
      · exact .inl ⟨_, hread, fun name heq => by cases heq⟩
      · exact .inr ⟨e, hread, hline, .inr (.inl (List.contains_iff_mem.1 hname))⟩
    · rename_i hparam
      split
      · rename_i hname
        rcases readReturns_outcome raw with ⟨r, hread⟩ | ⟨e, hread, hline⟩
        · exact .inl ⟨_, hread, fun name heq => by cases heq⟩
        · exact .inr ⟨e, hread, hline, .inr (.inr (List.contains_iff_mem.1 hname))⟩
      · rename_i hreturns
        refine .inl ⟨_, rfl, fun name heq => ?_⟩
        cases heq
        rw [mem_meaningfulNames_iff]
        rintro (hname | hname | hname)
        · exact himport hname
        · exact hparam (List.contains_iff_mem.2 hname)
        · exact hreturns (List.contains_iff_mem.2 hname)

/-- One diagnostic is about a tag that cannot be read, and none about another tag. -/
theorem read_outcome (file : Option String) :
    ((read file raw).1.isUnread = false ∧ (read file raw).2 = []) ∨
      ((read file raw).1.isUnread = true ∧
        ∃ d, (read file raw).2 = [d] ∧ (read file raw).1.Reports d) := by
  unfold read
  rcases readBody_outcome raw with ⟨body, hread, hother⟩ | ⟨e, hread, hline, hname⟩
  · refine .inl ?_
    rw [hread]
    refine ⟨?_, rfl⟩
    cases body with
    | other name => simpa [isUnread] using hother name rfl
    | imports | param | returns => rfl
  · refine .inr ?_
    rw [hread]
    exact ⟨List.contains_iff_mem.2 hname, _, rfl, rfl,
      congrArg (fun n : Nat => some (n : Int)) hline⟩

end Outcome

/-- The diagnostics about some tags are about those that cannot be read, in order. -/
theorem reports_read (file : Option String) (raws : List Raw) :
    List.Forall₂ Reports (((raws.map (read file)).map (·.1)).filter isUnread)
      ((raws.map (read file)).flatMap (·.2)) := by
  induction raws with
  | nil => exact .nil
  | cons raw raws ih =>
    simp only [List.map_cons, List.flatMap_cons]
    rcases read_outcome raw file with ⟨hunread, hnone⟩ | ⟨hunread, d, hone, hreports⟩
    · rw [List.filter_cons_of_neg (by simp [hunread]), hnone]
      exact ih
    · rw [List.filter_cons_of_pos hunread, hone]
      exact .cons hreports ih

/-- A comment has one tag for each of its lines that start with `@` and a letter, in order, with the
text of that line and of those down to the next one. The tags that have the name of a meaning but
none are reported one by one, on their lines. A tag depends on its place and its own text only: in
another comment, whatever its other tags are, it is the same. -/
theorem readAll_mirrors_comment (file : Option String) (loc : Loc) (text : List Char) :
    ∃ said, Says text said ∧
      List.Forall₂ (fun i tag => tag.loc.line = loc.line + i ∧
          tag.raw.toList = Text.trimRight (Text.unlines (blockAt said i)))
        (tagStarts said) (readAll file loc text).1 ∧
      List.Forall₂ Reports ((readAll file loc text).1.filter isUnread) (readAll file loc text).2 ∧
      ∀ loc' text', ∀ tag ∈ (readAll file loc text).1, ∀ tag' ∈ (readAll file loc' text').1,
        tag.loc = tag'.loc → tag.raw = tag'.raw → tag = tag' := by
  refine ⟨_, says_bodyLines loc text, ?_, reports_read file _, ?_⟩
  · refine List.forall₂_map_right_iff.2 (List.forall₂_map_right_iff.2 ?_)
    refine (startsAt_gather _).imp fun i raw hraw => ?_
    obtain ⟨⟨l, hl, hloc, -⟩, htext⟩ := hraw
    rw [loc_read, hloc, line_of_bodyLines hl, raw_read]
    exact ⟨rfl, htext⟩
  · intro loc' text' tag htag tag' htag' hloc hraw
    obtain ⟨_, hread, rfl⟩ := List.mem_map.1 htag
    obtain ⟨raw, hmem, rfl⟩ := List.mem_map.1 hread
    obtain ⟨_, hread', rfl⟩ := List.mem_map.1 htag'
    obtain ⟨raw', hmem', rfl⟩ := List.mem_map.1 hread'
    rw [loc_read, loc_read] at hloc
    have htext : raw.text = raw'.text := by
      rw [← raw_read file raw, hraw, raw_read]
    rw [eq_of_mem_rawTags hmem hmem' hloc htext]

/-- A comment whose first tag has an open brace. -/
def faultyComment : List Char :=
  "/**\n * @param \x7bA x\n * @returns \x7bB\x7d y\n *   more\n */".toList

/-- The same comment with the brace closed. -/
def mendedComment : List Char :=
  "/**\n * @param \x7bA\x7d x\n * @returns \x7bB\x7d y\n *   more\n */".toList

/-- The open brace costs the first tag its meaning. The second tag is the same with and without
it. -/
theorem readAll_mirrors_faulty_comment :
    (readAll none ⟨1, 1⟩ faultyComment).1.map isUnread = [true, false] ∧
      (readAll none ⟨1, 1⟩ mendedComment).1.map isUnread = [false, false] ∧
      ∃ tag, (readAll none ⟨1, 1⟩ faultyComment).1[1]? = some tag ∧
        (readAll none ⟨1, 1⟩ mendedComment).1[1]? = some tag ∧
        tag.loc = ⟨3, 4⟩ ∧ tag.raw = "@returns \x7bB\x7d y\nmore" := by
  refine ⟨by decide +kernel, by decide +kernel, ?_⟩
  obtain ⟨-, -, -, -, halone⟩ := readAll_mirrors_comment none ⟨1, 1⟩ faultyComment
  have hplaces : ((readAll none ⟨1, 1⟩ faultyComment).1[1]?).map (fun tag => (tag.loc, tag.raw)) =
      some (⟨3, 4⟩, "@returns \x7bB\x7d y\nmore") := by decide +kernel
  have hplaces' : ((readAll none ⟨1, 1⟩ mendedComment).1[1]?).map (fun tag => (tag.loc, tag.raw)) =
      some (⟨3, 4⟩, "@returns \x7bB\x7d y\nmore") := by decide +kernel
  obtain ⟨tag, htag, hplace⟩ := Option.map_eq_some_iff.1 hplaces
  obtain ⟨tag', htag', hplace'⟩ := Option.map_eq_some_iff.1 hplaces'
  obtain ⟨hloc, hraw⟩ := Prod.mk.inj hplace
  obtain ⟨hloc', hraw'⟩ := Prod.mk.inj hplace'
  have hsame : tag = tag' := halone ⟨1, 1⟩ mendedComment tag (List.mem_of_getElem? htag) tag'
    (List.mem_of_getElem? htag') (hloc.trans hloc'.symm) (hraw.trans hraw'.symm)
  exact ⟨tag, htag, hsame ▸ htag', hloc, hraw⟩

end DocSignature.Tag
