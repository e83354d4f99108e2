import DocSignature.Proofs.DiagnosticOrder
import DocSignature.Proofs.Frame
import DocSignature.Proofs.NameReport
import DocSignature.Proofs.ParamPairing
import DocSignature.Proofs.TagMirror
import DocSignature.Proofs.TagReach

/-!
# Diagnostics and their tags

Whatever a conversion says, it says about a tag: the place of the diagnostic is on one of the lines
of the tag, in the file of the conversion. The diagnostics come by line and column, none is lost,
and those of the same place stay in the order in which they were found.
-/

namespace DocSignature

/-! ## Diagnostics at a place -/

namespace Diagnostic

/-- Holds of a diagnostic about a place. -/
def isAt (loc : Loc) (d : Diagnostic) : Bool :=
  d.span.line = some (loc.line : Int) && d.span.column = some (loc.column : Int)

/-- A diagnostic about a place that is not behind the place of another one. -/
def InOrder (a b : Diagnostic) : Prop :=
  ∃ p q : Loc, a.isAt p = true ∧ b.isAt q = true ∧
    (p.line < q.line ∨ p.line = q.line ∧ p.column ≤ q.column)

theorem isAt_iff {loc : Loc} {d : Diagnostic} :
    d.isAt loc = true ↔
      d.span.line = some (loc.line : Int) ∧ d.span.column = some (loc.column : Int) := by
  simp [isAt]

theorem isAt_of_span {loc : Loc} {file : Option String} {d : Diagnostic}
    (h : d.span = Span.ofLoc loc file) : d.isAt loc = true := by
  rw [isAt_iff, h]
  exact ⟨rfl, rfl⟩

theorem notAfter_iff {a b : Diagnostic} {p q : Loc} (ha : a.isAt p = true) (hb : b.isAt q = true) :
    notAfter a b = true ↔ p.line < q.line ∨ p.line = q.line ∧ p.column ≤ q.column := by
  obtain ⟨hline, hcolumn⟩ := isAt_iff.1 ha
  obtain ⟨hline', hcolumn'⟩ := isAt_iff.1 hb
  simp only [notAfter, sortLine, sortColumn, hline, hline', hcolumn, hcolumn', Option.getD_some,
    Bool.or_eq_true, Bool.and_eq_true, decide_eq_true_eq, beq_iff_eq]
  omega

/-- The diagnostics about one place keep their order. -/
theorem filter_isAt_sort (loc : Loc) (ds : List Diagnostic) :
    (sort ds).filter (isAt loc) = ds.filter (isAt loc) :=
  filter_sort_of_notAfter (fun _ _ ha hb => (notAfter_iff ha hb).2 (.inr ⟨rfl, le_rfl⟩)) ds

/-- Diagnostics with places are sorted by them. -/
theorem pairwise_inOrder_sort {ds : List Diagnostic} (h : ∀ d ∈ ds, ∃ loc, d.isAt loc = true) :
    (sort ds).Pairwise InOrder := by
  refine (List.pairwise_mergeSort notAfter_trans notAfter_total ds).imp_of_mem ?_
  intro a b ha hb hab
  obtain ⟨p, hp⟩ := h a (List.mem_mergeSort.1 ha)
  obtain ⟨q, hq⟩ := h b (List.mem_mergeSort.1 hb)
  exact ⟨p, q, hp, hq, (notAfter_iff hp hq).1 hab⟩

end Diagnostic

/-! ## Diagnostics about a tag -/

/-- A diagnostic about a place on the lines of a tag. -/
def Tag.Pins (tag : Tag) (file : Option String) (d : Diagnostic) : Prop :=
  ∃ loc, tag.Covers loc ∧ d.span = Span.ofLoc loc file

/-- What is said about a tag that cannot be read is said about its line. -/
theorem Tag.pins_of_mem_read {file : Option String} {raw : Raw} {d : Diagnostic}
    (h : d ∈ (read file raw).2) : (read file raw).1.Pins file d := by
  unfold read at h ⊢
  rcases readBody_outcome raw with ⟨body, hread, -⟩ | ⟨e, hread, hline, -⟩
  · rw [hread] at h
    cases h
  · rw [hread] at h ⊢
    obtain rfl := List.mem_singleton.1 h
    exact ⟨e.loc, covers_of_line_eq hline, rfl⟩

theorem DocComment.exists_pins_of_mem_readAll {file : Option String} {cs : List Char}
    {d : Diagnostic} (h : d ∈ (readAll file cs).2) :
    ∃ comment ∈ (readAll file cs).1, ∃ tag ∈ comment.tags, tag.Pins file d := by
  obtain ⟨found, hfound, hd⟩ := List.mem_flatMap.1 h
  refine ⟨found.1, List.mem_map_of_mem hfound, ?_⟩
  obtain ⟨block, -, rfl⟩ := List.mem_map.1 hfound
  obtain ⟨read, hread, hd⟩ := List.mem_flatMap.1 hd
  refine ⟨read.1, List.mem_map_of_mem hread, ?_⟩
  obtain ⟨raw, -, rfl⟩ := List.mem_map.1 hread
  exact Tag.pins_of_mem_read hd

namespace ImportTable

/-- A repeated binding is one of those that were added. -/
theorem later_mem_of_addAll {bs : List Binding} {t : ImportTable} {first later : Binding}
    (h : (first, later) ∈ (t.addAll bs).2) : later ∈ bs := by
  induction bs generalizing t with
  | nil => cases h
  | cons b bs ih =>
    rw [addAll] at h
    split at h
    · rcases List.mem_cons.1 h with heq | h
      · cases heq
        exact List.mem_cons_self
      · exact List.mem_cons_of_mem _ (ih h)
    · exact List.mem_cons_of_mem _ (ih h)

/-- A tag binds names on its own lines. -/
theorem covers_of_mem_bindingsOf {tag : Tag} (htag : tag.MentionsWritten) {b : Binding}
    (h : b ∈ bindingsOf tag) : ∃ loc, b.loc = some loc ∧ tag.Covers loc := by
  unfold bindingsOf at h
  split at h
  · obtain rfl := List.mem_singleton.1 h
    exact ⟨tag.loc, rfl, Tag.covers_of_line_eq rfl⟩
  · rename_i specifiers _ hbody
    obtain ⟨s, hs, rfl⟩ := List.mem_map.1 h
    refine ⟨s.loc, rfl, htag.covers (m := s.mention) ?_⟩
    rw [Tag.mentions, hbody]
    exact List.mem_map_of_mem hs
  · cases h

/-- A repeated name is reported on the lines of the tag that repeats it. -/
theorem exists_pins_of_mem_ofTags {file : Option String} {tags : List Tag}
    (htags : ∀ tag ∈ tags, tag.MentionsWritten) {d : Diagnostic} (h : d ∈ (ofTags file tags).2) :
    ∃ tag ∈ tags, tag.Pins file d := by
  obtain ⟨⟨first, later⟩, hrepeated, rfl⟩ := List.mem_map.1 h
  obtain ⟨tag, htag, hlater⟩ := List.mem_flatMap.1 (later_mem_of_addAll hrepeated)
  obtain ⟨loc, hloc, hcovers⟩ := covers_of_mem_bindingsOf (htags tag htag) hlater
  refine ⟨tag, htag, loc, hcovers, ?_⟩
  simp only [duplicateDiagnostic, hloc]

end ImportTable

/-! ## Diagnostics about types -/

theorem Resolved.span_of_mem_resolveRef {table : ImportTable} {file : Option String}
    {name : TypeRef} {d : Diagnostic} (h : d ∈ (resolveRef table file name).2) :
    d.span = Span.ofLoc name.loc file := by
  unfold resolveRef at h
  split at h
  · cases h
  · split at h
    · cases h
    · obtain rfl := List.mem_singleton.1 h
      rfl
    · obtain rfl := List.mem_singleton.1 h
      rfl
    · cases h

theorem TypeText.span_of_mem_emitRef {policy : NamingPolicy} {file : Option String}
    {name : TypeRef} {target : RefTarget} {d : Diagnostic}
    (h : d ∈ (emitRef policy file name target).2) : d.span = Span.ofLoc name.loc file := by
  cases target with
  | invalid | symbol | member => cases h
  | unbound =>
    simp only [emitRef] at h
    split at h
    · cases h
    · obtain rfl := List.mem_singleton.1 h
      rfl

/-- What is said about a type is said about one of its names. -/
theorem TypeText.span_of_mem_ofExpr {table : ImportTable} {policy : NamingPolicy}
    {file : Option String} {e : TypeExpr} {d : Diagnostic}
    (h : d ∈ (ofExpr table policy file e).2) :
    ∃ name ∈ e.refs, d.span = Span.ofLoc name.loc file := by
  rcases List.mem_append.1 h with h | h
  · rw [Resolved.resolve_diagnostics] at h
    obtain ⟨name, hname, hd⟩ := List.mem_flatMap.1 h
    exact ⟨name, hname, Resolved.span_of_mem_resolveRef hd⟩
  · rw [emit_diagnostics, Resolved.leaves_resolve, List.flatMap_map] at h
    obtain ⟨name, hname, hd⟩ := List.mem_flatMap.1 h
    exact ⟨name, hname, span_of_mem_emitRef hd⟩

namespace Conversion

/-- The type of which something is said is that of the tag. -/
theorem exists_type_of_mem_tagDiagnostics {t : Target} {table : ImportTable} {tag : Tag}
    {d : Diagnostic} (h : d ∈ tagDiagnostics t table tag) :
    ∃ e, d ∈ (typeOf t table e).2 ∧ ∀ name ∈ e.refs, name.mention ∈ tag.mentions := by
  unfold tagDiagnostics at h
  split at h
  · rename_i p hbody
    cases htype : p.type with
    | none => simp [htype] at h
    | some e =>
      rw [htype] at h
      refine ⟨e, h, fun name hname => ?_⟩
      simpa [Tag.mentions, hbody, htype] using ⟨name, hname, rfl⟩
  · rename_i r hbody
    cases htype : r.type with
    | none => simp [htype] at h
    | some e =>
      rw [htype, Option.map_some, Option.getD_some, returnTypeOf] at h
      split at h
      · cases h
      · refine ⟨e, h, fun name hname => ?_⟩
        simpa [Tag.mentions, hbody, htype] using ⟨name, hname, rfl⟩
  · cases h

theorem pins_of_mem_tagDiagnostics {t : Target} {table : ImportTable} {tag : Tag}
    (htag : tag.MentionsWritten) {d : Diagnostic} (h : d ∈ tagDiagnostics t table tag) :
    tag.Pins t.file d := by
  obtain ⟨e, hd, hmentions⟩ := exists_type_of_mem_tagDiagnostics h
  obtain ⟨name, hname, hspan⟩ := TypeText.span_of_mem_ofExpr hd
  exact ⟨name.loc, htag.covers (hmentions name hname), hspan⟩

/-! ## Diagnostics of a conversion -/

/-- What is said about a header is said about a tag of one of the comments in front of it. -/
theorem exists_pins_of_mem_renderHeader {t : Target} {table : ImportTable}
    {comments : List DocComment} {k : Header} {d : Diagnostic}
    (h : d ∈ (renderHeader t table comments k).2) :
    ∃ comment ∈ comments, ∃ tag ∈ comment.tags, tag.Pins t.file d := by
  obtain ⟨doc, hdoc, rfl⟩ := List.mem_map.1 h
  obtain ⟨comment, hcomment, hparam⟩ := List.mem_flatMap.1 (Header.mem_of_mem_pair (.inr hdoc))
  obtain ⟨tag, htag, heq⟩ := List.mem_filterMap.1 hparam
  refine ⟨comment, hcomment, tag, htag, tag.loc, Tag.covers_of_line_eq rfl, ?_⟩
  split at heq
  · cases heq
    rfl
  · cases heq

/-- What a conversion finds, in the order in which it finds it: about the tags, and then header by
header. -/
def found (t : Target) (cs : List Char) (headers : List Header) : List Diagnostic :=
  problemsOf t cs ++ headers.flatMap fun k => (writtenHeader t cs k).2

theorem exists_pins_of_mem_found {t : Target} {cs : List Char} {headers : List Header}
    {d : Diagnostic} (h : d ∈ found t cs headers) :
    ∃ comment ∈ commentsOf t cs, ∃ tag ∈ comment.tags, tag.Pins t.file d := by
  have hwritten : ∀ tag ∈ (commentsOf t cs).flatMap (·.tags), tag.MentionsWritten := by
    intro tag htag
    obtain ⟨comment, hcomment, htag⟩ := List.mem_flatMap.1 htag
    exact DocComment.mentionsWritten_of_mem_tags hcomment htag
  have hsome (hd : ∃ tag ∈ (commentsOf t cs).flatMap (·.tags), tag.Pins t.file d) :
      ∃ comment ∈ commentsOf t cs, ∃ tag ∈ comment.tags, tag.Pins t.file d := by
    obtain ⟨tag, htag, hpins⟩ := hd
    obtain ⟨comment, hcomment, htag⟩ := List.mem_flatMap.1 htag
    exact ⟨comment, hcomment, tag, htag, hpins⟩
  simp only [found, problemsOf, List.mem_append] at h
  rcases h with ((hparser | himports) | htypes) | hheaders
  · exact DocComment.exists_pins_of_mem_readAll hparser
  · exact hsome (ImportTable.exists_pins_of_mem_ofTags hwritten himports)
  · obtain ⟨tag, htag, hd⟩ := List.mem_flatMap.1 htypes
    exact hsome ⟨tag, htag, pins_of_mem_tagDiagnostics (hwritten tag htag) hd⟩
  · obtain ⟨k, -, hd⟩ := List.mem_flatMap.1 hheaders
    obtain ⟨comment, hcomment, htag⟩ := exists_pins_of_mem_renderHeader hd
    exact ⟨comment, (precedingComments_sublist _ _ _).subset hcomment, htag⟩

/-- The diagnostics of a conversion are those that were found, by line and column, and in the order
of their finding where these are equal. Each is about the file of the conversion and about a line
from that of a tag down to the last one of the comment that holds the tag. -/
theorem convert_sorts_pinned_diagnostics (t : Target) (source name : String) (c : Conversion)
    (hfile : t.file = some name) (hname : name ≠ "") (h : convert t source = .ok c) :
    ∃ headers, Header.find t.language source.toList = .ok headers ∧
      c.diagnostics.Perm (found t source.toList headers) ∧
      c.diagnostics.Pairwise Diagnostic.InOrder ∧
      (∀ loc, c.diagnostics.filter (Diagnostic.isAt loc) =
        (found t source.toList headers).filter (Diagnostic.isAt loc)) ∧
      ∀ d ∈ c.diagnostics, d.span.file = some name ∧
        ∃ comment ∈ commentsOf t source.toList, ∃ tag ∈ comment.tags, ∃ loc : Loc,
          d.isAt loc = true ∧ tag.loc.line ≤ loc.line ∧
            loc.line ≤ comment.lastLine source.toList := by
  obtain ⟨headers, hheaders, -, hsort⟩ := convert_eq_ok h
  change c.diagnostics = Diagnostic.sort (found t source.toList headers) at hsort
  have hperm : c.diagnostics.Perm (found t source.toList headers) :=
    hsort ▸ List.mergeSort_perm _ _
  refine ⟨headers, hheaders, hperm, ?_, ?_, ?_⟩
  · rw [hsort]
    apply Diagnostic.pairwise_inOrder_sort
    intro d hd
    obtain ⟨-, -, -, -, loc, -, hspan⟩ := exists_pins_of_mem_found hd
    exact ⟨loc, Diagnostic.isAt_of_span hspan⟩
  · intro loc
    rw [hsort, Diagnostic.filter_isAt_sort]
  · intro d hd
    obtain ⟨comment, hcomment, tag, htag, loc, hcovers, hspan⟩ :=
      exists_pins_of_mem_found (hperm.subset hd)
    constructor
    · rw [hspan, hfile]
      simp [Span.ofLoc, Span.ofLineColumn, Option.filter, hname]
    · exact ⟨comment, hcomment, tag, htag, loc, Diagnostic.isAt_of_span hspan, hcovers.first,
        hcovers.last.trans (DocComment.lastLine_le_of_mem_tags hcomment htag)⟩

/-- A comment in front of a header without parameters. The unknown type opens below its tag, so it
is placed at the tag, as is the parameter. The other tag leaves a brace open. -/
def faultySource : String :=
  "/**\n * @param\n * \x7bX\x7d a\n * @returns \x7bY\n */ function f() \x7b\x7d"

/-- The header of `faultySource`. -/
def faultyHeaders : List Header := [⟨42, 54, "f", [], false⟩]

theorem find_faultySource : Header.find .python faultySource.toList = .ok faultyHeaders :=
  Header.find_of_recognised faultyHeaders [] (by decide +kernel)
    (ok_of_toOption (by decide +kernel)) (by decide) (by decide +kernel)

/-- Three problems are found, and reported by place; the two of one place stay in order. -/
theorem convert_sorts_faulty_diagnostics :
    let t : Target := { language := .python, file := some "a.js" }
    let problems := found t faultySource.toList faultyHeaders
    ∃ c, convert t faultySource = .ok c ∧
      problems.map (fun d => (d.kind, d.span.line, d.span.column)) =
        [(.malformedTag, some 4, some 4), (.unknownType, some 2, some 4),
          (.unmatchedParam, some 2, some 4)] ∧
      c.diagnostics.Perm problems ∧ c.diagnostics.Pairwise Diagnostic.InOrder ∧
      (c.diagnostics.filter (Diagnostic.isAt ⟨2, 4⟩)).map (·.kind) =
        [.unknownType, .unmatchedParam] ∧
      ∀ d ∈ c.diagnostics, d.span.file = some "a.js" ∧
        ∃ loc : Loc, d.isAt loc = true ∧ 2 ≤ loc.line ∧ loc.line ≤ 5 := by
  intro t problems
  have hsome : (convert t faultySource).toOption.isSome = true := by decide +kernel
  obtain ⟨c, hc⟩ := Option.isSome_iff_exists.1 hsome
  have hc := ok_of_toOption hc
  obtain ⟨headers, hfind, hperm, hsorted, hstable, hpinned⟩ :=
    convert_sorts_pinned_diagnostics t faultySource "a.js" c rfl (by decide) hc
  obtain rfl : faultyHeaders = headers := Except.ok.inj (find_faultySource.symm.trans hfind)
  have hlines : ∀ comment ∈ commentsOf t faultySource.toList,
      comment.lastLine faultySource.toList = 5 ∧ ∀ tag ∈ comment.tags, 2 ≤ tag.loc.line := by
    decide +kernel
  refine ⟨c, hc, by decide +kernel, hperm, hsorted, ?_, fun d hd => ?_⟩
  · rw [hstable]
    decide +kernel
  · obtain ⟨hfile, comment, hcomment, tag, htag, loc, hat, hfirst, hlast⟩ := hpinned d hd
    obtain ⟨hfive, htwo⟩ := hlines comment hcomment
    exact ⟨hfile, loc, hat, (htwo tag htag).trans hfirst, hfive ▸ hlast⟩

end Conversion

end DocSignature
