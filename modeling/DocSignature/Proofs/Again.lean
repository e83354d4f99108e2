import DocSignature.Proofs.Tidy

/-!
# Converting again

A source whose headers are written as they stand is left as it is. After its conversion this holds
of every tidy source. A pattern with a default inside of it is not written as it stands.
-/

namespace DocSignature.Conversion

/-- A source is left as it is when each of its headers is written as it stands. -/
theorem convert_leaves_written_headers (t : Target) (source : String) (c : Conversion)
    (h : convert t source = .ok c)
    (hsame : ∀ headers, Header.find t.language source.toList = .ok headers → ∀ k ∈ headers,
      (writtenHeader t source.toList k).1.toList = Source.slice source.toList k.start k.stop) :
    c.text = source := by
  obtain ⟨headers, hfind, htext, -⟩ := convert_eq_ok h
  have hwritten : headers.map (fun k => (writtenHeader t source.toList k).1.toList) =
      headers.map fun k => Source.slice source.toList k.start k.stop :=
    List.map_congr_left (hsame headers hfind)
  have hweave := eq_weave_of_find t hfind
  rw [← hwritten] at hweave
  rw [splice_eq_weave, List.map_map] at htext
  exact String.toList_inj.1 (htext.trans hweave.symm)

/-- What a header is written as depends on the tags of the comments only. -/
theorem renderHeader_comment (t : Target) (table : ImportTable) (loc : Patch.Spot → Loc)
    (tags : Patch.Spot → List Tag) (near : List Patch.Spot) (side : Side) (k : Header) :
    renderHeader t table (near.map (Patch.comment loc tags side)) k =
      renderHeader t table (near.map (Patch.comment loc tags .old)) k := by
  have hparams : (near.map (Patch.comment loc tags side)).flatMap (·.params) =
      (near.map (Patch.comment loc tags .old)).flatMap (·.params) := by
    simp only [List.flatMap_map]
    rfl
  have hreturns : (near.map (Patch.comment loc tags side)).findSome? DocComment.returns? =
      (near.map (Patch.comment loc tags .old)).findSome? DocComment.returns? := by
    simp only [List.findSome?_map]
    rfl
  simp only [renderHeader, returnText, hparams, hreturns]

section Tidy
variable {t : Target} {cs : List Char} {headers : List Header}
  (hfind : Header.find t.language cs = .ok headers) (ht : t.typeMap = [])
  (htidy : Tidy t cs headers)
include hfind ht htidy

/-- Before and after a conversion a tidy source has the same comments, and the same is said about
their tags. -/
theorem exists_docs : ∃ (docs : List Patch.Spot) (loc : Patch.Spot → Loc)
    (tags : Patch.Spot → List Tag) (problems : List Diagnostic),
    (∀ s ∈ docs, s.In (patchOf t cs headers)) ∧ ∀ side,
      DocComment.readAll t.file (Patch.text side (patchOf t cs headers)) =
        (docs.map (Patch.comment loc tags side), problems) := by
  have hsound := sound_patchOf hfind ht htidy
  obtain ⟨spots, hm⟩ := hsound.exists_marked (clear_patchOf hfind)
  exact ⟨Patch.docSpots spots, _, _, _, fun s hs => hm.spot s (List.mem_of_mem_filter hs),
    hsound.readAll_text hm (onOwnLine_of_tidy hfind htidy hm) t.file⟩

theorem tags_text (side : Side) :
    (commentsOf t (Patch.text side (patchOf t cs headers))).flatMap (·.tags) =
      (commentsOf t cs).flatMap (·.tags) := by
  obtain ⟨docs, loc, tags, problems, -, hread⟩ := exists_docs hfind ht htidy
  have hold := hread .old
  rw [text_old_patchOf hfind] at hold
  rw [commentsOf, commentsOf, hread, hold]
  simp only [List.flatMap_map]
  rfl

theorem tableOf_text (side : Side) :
    tableOf t (Patch.text side (patchOf t cs headers)) = tableOf t cs := by
  rw [tableOf, tags_text hfind ht htidy, tableOf]

theorem problemsOf_text (side : Side) :
    problemsOf t (Patch.text side (patchOf t cs headers)) = problemsOf t cs := by
  obtain ⟨docs, loc, tags, problems, -, hread⟩ := exists_docs hfind ht htidy
  have hold := hread .old
  rw [text_old_patchOf hfind] at hold
  simp only [problemsOf, tags_text hfind ht htidy, tableOf_text hfind ht htidy, hread, hold]

/-- A draft that was written in the place of a header is written again with the comments of the
header. -/
theorem written_again {before after : List Cell} {o n : List Char}
    (hp : patchOf t cs headers = before ++ .swap o n :: after) {k : Header}
    (hstart : (Patch.text .old before).length = k.start) :
    writtenHeader t (Patch.text .new (patchOf t cs headers))
        ((headerDraft t cs k).header t.language (Patch.text .new before).length) =
      renderHeader t (tableOf t cs) (precedingComments cs (commentsOf t cs) k.start)
        ((headerDraft t cs k).header t.language (Patch.text .new before).length) := by
  obtain ⟨docs, loc, tags, problems, hdocs, hread⟩ := exists_docs hfind ht htidy
  obtain ⟨near, hnear⟩ :=
    (sound_patchOf hfind ht htidy).exists_preceding loc tags hdocs hp
  have hold := hnear .old
  have hreadOld := hread .old
  rw [text_old_patchOf hfind] at hold hreadOld
  rw [hstart] at hold
  have hcomments : commentsOf t cs = docs.map (Patch.comment loc tags .old) := by
    rw [commentsOf, hreadOld]
  rw [writtenHeader, tableOf_text hfind ht htidy, commentsOf, hread]
  simp only [Header.Draft.header]
  rw [hnear, renderHeader_comment, hcomments, hold]

/-- A header of the converted source is written as it stands, and what there is to say about it is
of the same kinds as for a header of the source. -/
theorem header_again {again : List Header}
    (hagain : Header.find t.language (Patch.text .new (patchOf t cs headers)) = .ok again)
    {k' : Header} (hk' : k' ∈ again) :
    (writtenHeader t (Patch.text .new (patchOf t cs headers)) k').1.toList =
        Source.slice (Patch.text .new (patchOf t cs headers)) k'.start k'.stop ∧
      ∃ k ∈ headers, (writtenHeader t (Patch.text .new (patchOf t cs headers)) k').2.map (·.kind) =
        (writtenHeader t cs k).2.map (·.kind) := by
  obtain ⟨before, o, n, after, hp, hdraft⟩ :=
    (rewrites_patchOf hfind ht htidy).header_of_find hagain hk'
  obtain ⟨k, hk, hbefore, -, hn, -⟩ := header_of_swap hfind hp
  rw [toList_writtenHeader] at hn
  obtain rfl := hdraft _ (htidy.plain_headerDraft ht hk) hn
  have hstart : (Patch.text .old before).length = k.start := by
    rw [hbefore, length_take_start hfind hk]
  rw [written_again hfind ht htidy hp hstart]
  refine ⟨?_, k, hk, kinds_header t (tableOf t cs) _ k _⟩
  rw [toList_renderHeader]
  refine (text_header t (tableOf t cs) _ k (htidy.plain k hk).name _).trans ?_
  have hslice := Patch.slice_text .new before [.swap o n] after
  rw [List.singleton_append, ← hp] at hslice
  have hstands : Source.slice (Patch.text .new (patchOf t cs headers))
      (Patch.text .new before).length
      ((Patch.text .new before).length + ((headerDraft t cs k).text t.language).length) =
      (headerDraft t cs k).text t.language := by
    simpa [Cell.text, hn] using hslice
  exact hstands.symm

end Tidy

theorem mem_sort {ds : List Diagnostic} {d : Diagnostic} : d ∈ Diagnostic.sort ds ↔ d ∈ ds :=
  (List.mergeSort_perm ds _).mem_iff

/-- A tidy source that was converted is not changed when it is converted again, and nothing new is
said about it. -/
theorem convert_again_of_tidy (t : Target) (source : String) (c : Conversion)
    (headers : List Header) (ht : t.typeMap = []) (hc : convert t source = .ok c)
    (hfind : Header.find t.language source.toList = .ok headers)
    (htidy : Tidy t source.toList headers) :
    ∃ c', convert t c.text = .ok c' ∧ c'.text = c.text ∧
      ∀ d' ∈ c'.diagnostics, ∃ d ∈ c.diagnostics, d'.kind = d.kind := by
  obtain ⟨_, hsame, htext, hdiagnostics⟩ := convert_eq_ok hc
  rw [hfind] at hsame
  cases hsame
  have hnew : c.text.toList = Patch.text .new (patchOf t source.toList headers) :=
    htext.trans (Patch.text_new_ofEdits _ _ 0).symm
  obtain ⟨c', hc'⟩ := (exists_convert_eq_ok_iff t c.text).2 (by
    rw [hnew]
    exact (rewrites_patchOf hfind ht htidy).exists_targetHeaders)
  refine ⟨c', hc', ?_, ?_⟩
  · -- Each header that is found again is a draft, and drafts are written as they stand.
    apply convert_leaves_written_headers t c.text c' hc'
    intro again hagain k' hk'
    rw [hnew] at hagain ⊢
    exact (header_again hfind ht htidy hagain hk').1
  · obtain ⟨again, hagain, -, hdiagnostics'⟩ := convert_eq_ok hc'
    rw [hnew] at hagain hdiagnostics'
    intro d' hd'
    rw [hdiagnostics', problemsOf_text hfind ht htidy] at hd'
    rw [hdiagnostics]
    -- What is said about comments is the same; about headers the places may differ.
    rcases List.mem_append.1 (mem_sort.1 hd') with hproblem | hheader
    · exact ⟨d', mem_sort.2 (List.mem_append_left _ hproblem), rfl⟩
    · obtain ⟨k', hk', hd'⟩ := List.mem_flatMap.1 hheader
      obtain ⟨-, k, hk, hkinds⟩ := header_again hfind ht htidy hagain hk'
      have hmem : d'.kind ∈ (writtenHeader t source.toList k).2.map (·.kind) := by
        rw [← hkinds]
        exact List.mem_map_of_mem hd'
      obtain ⟨d, hd, heq⟩ := List.mem_map.1 hmem
      exact ⟨d, mem_sort.2 (List.mem_append_right _ (List.mem_flatMap.2 ⟨k, hk, hd⟩)), heq.symm⟩

/-- A documented function, and one in a comment. -/
def documentedSource : String :=
  "/** @param \x7bstring\x7d [n=1] */\nfunction fG(n) \x7b\x7d // def g(b)"

/-- The header of the documented function. -/
def documentedHeader : Header := ⟨29, 43, "fG", [⟨"n", none⟩], false⟩

theorem find_documentedSource :
    Header.find .python documentedSource.toList = .ok [documentedHeader] :=
  Header.find_of_recognised [documentedHeader] [⟨50, 58, "g", [⟨"b", none⟩], false⟩]
    (by decide +kernel) (ok_of_toOption (by decide +kernel)) (by decide) (by decide +kernel)

theorem tidy_documentedSource :
    Tidy { language := .python } documentedSource.toList [documentedHeader] where
  plain := by
    rw [List.forall_mem_singleton]
    refine ⟨⟨'f', ['G'], by decide, by decide, Text.forall_mem_of_all (by decide)⟩, ?_, ?_⟩
    · rintro p (_ | ⟨_, ⟨⟩⟩)
      exact ⟨'n', [], by decide, by decide, Text.forall_mem_of_all (by decide)⟩
    · rintro p (_ | ⟨_, ⟨⟩⟩) text ⟨⟩
  alone := by
    rw [List.forall_mem_singleton]
    exact ⟨Text.forall_mem_of_all (by decide +kernel), by decide +kernel, by decide +kernel⟩
  source := by decide +kernel
  target := by decide +kernel
  values := by
    have hall : (commentsOf { language := .python } documentedSource.toList).all (fun c =>
        c.params.all fun doc => doc.2.defaultText.all (· = "1")) = true := by decide +kernel
    intro c hc doc hdoc text htext
    have hone := List.all_eq_true.1 (List.all_eq_true.1 hall c hc) doc hdoc
    obtain rfl : text = "1" := by simpa [Option.mem_def.1 htext] using hone
    exact ⟨⟨Text.trimmed_of_ends rfl rfl, Text.forall_mem_of_all (by decide), by decide⟩,
      Text.forall_mem_of_all (by decide)⟩
  lines := by
    have hall : (Source.docBlocks documentedSource.toList).all (·.start < 43) = true := by
      decide +kernel
    intro block hblock
    rw [List.forall_mem_singleton]
    intro hle
    have hlt : block.start < 43 := by simpa using List.all_eq_true.1 hall block hblock
    exact absurd hle (by simp only [documentedHeader]; omega)

/-- A documented function keeps its header, and the function in the comment stays. -/
theorem convert_again_documented :
    ∃ c c', Header.find .python documentedSource.toList = .ok [documentedHeader] ∧
      Tidy { language := .python } documentedSource.toList [documentedHeader] ∧
      convert { language := .python } documentedSource = .ok c ∧
      c.text = "/** @param \x7bstring\x7d [n=1] */\ndef f_g(n: str = 1) \x7b\x7d // def g(b)" ∧
      convert { language := .python } c.text = .ok c' ∧ c'.text = c.text ∧
      ∀ d' ∈ c'.diagnostics, ∃ d ∈ c.diagnostics, d'.kind = d.kind := by
  have htext : (convert { language := .python } documentedSource).toOption.map (·.text) =
      some "/** @param \x7bstring\x7d [n=1] */\ndef f_g(n: str = 1) \x7b\x7d // def g(b)" := by
    rw [convert, find_documentedSource]
    decide +kernel
  obtain ⟨c, hc, htext⟩ := Option.map_eq_some_iff.1 htext
  have hc := ok_of_toOption hc
  obtain ⟨c', hc', hsame, hkinds⟩ := convert_again_of_tidy { language := .python } documentedSource
    c [documentedHeader] rfl hc find_documentedSource tidy_documentedSource
  exact ⟨c, c', find_documentedSource, tidy_documentedSource, hc, htext, hc', hsame, hkinds⟩

/-- The default inside of a pattern is set apart by blanks at first, and no longer when the result
is converted again. -/
theorem convert_twice_changes_pattern :
    ∃ c c', convert { language := .python } "function f(\x7ba = 1\x7d) \x7b\x7d" = .ok c ∧
      convert { language := .python } c.text = .ok c' ∧ c'.text ≠ c.text := by
  have hfirst : (convert { language := .python } "function f(\x7ba = 1\x7d) \x7b\x7d").toOption.map
      (·.text) = some "def f(\x7ba = 1\x7d) \x7b\x7d" := by
    decide +kernel
  have hsecond : (convert { language := .python } "def f(\x7ba = 1\x7d) \x7b\x7d").toOption.map
      (·.text) = some "def f(\x7ba=1\x7d) \x7b\x7d" := by
    decide +kernel
  obtain ⟨c, hc, htext⟩ := Option.map_eq_some_iff.1 hfirst
  rw [← htext] at hsecond
  obtain ⟨c', hc', htext'⟩ := Option.map_eq_some_iff.1 hsecond
  refine ⟨c, c', ok_of_toOption hc, ok_of_toOption hc', ?_⟩
  rw [htext, htext']
  decide

end DocSignature.Conversion
