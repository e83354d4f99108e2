import DocSignature.Conversion
import DocSignature.Proofs.Kept

/-!
# Only headers change

A conversion replaces the stretches of the kept headers and copies the text before, between and
behind them. Source and result are woven from the same gaps.
-/

namespace DocSignature.Conversion

/-! ## The parts of a conversion -/

/-- The doc comments of a source. -/
def commentsOf (t : Target) (cs : List Char) : List DocComment :=
  (DocComment.readAll t.file cs).1

/-- The names that the comments of a source import. -/
def tableOf (t : Target) (cs : List Char) : ImportTable :=
  (ImportTable.ofTags t.file ((commentsOf t cs).flatMap (·.tags))).1

/-- What a header of a source is written as, and what there is to say about it. -/
def writtenHeader (t : Target) (cs : List Char) (h : Header) : String × List Diagnostic :=
  renderHeader t (tableOf t cs) (precedingComments cs (commentsOf t cs) h.start) h

/-- The stretch of a header, and what is written in its place. -/
def editOf (t : Target) (cs : List Char) (h : Header) : Edit :=
  ⟨h.start, h.stop, (writtenHeader t cs h).1.toList⟩

theorem edits_eq (t : Target) (cs : List Char) (headers : List Header) :
    edits t (tableOf t cs) cs (commentsOf t cs) headers =
      headers.map fun h => (editOf t cs h, (writtenHeader t cs h).2) := rfl

theorem adjacent_sublist (cs : List Char) (comments : List DocComment) :
    ∀ cursor, (adjacent cs cursor comments).Sublist comments := by
  induction comments with
  | nil => intro cursor; exact List.Sublist.refl _
  | cons c comments ih =>
    intro cursor
    rw [adjacent]
    split
    · exact (ih c.start).cons_cons c
    · exact List.nil_sublist _

theorem precedingComments_sublist (cs : List Char) (comments : List DocComment) (offset : Nat) :
    (precedingComments cs comments offset).Sublist comments := by
  have hadjacent :=
    (adjacent_sublist cs (comments.takeWhile (·.stop ≤ offset)).reverse offset).reverse
  rw [List.reverse_reverse] at hadjacent
  exact hadjacent.trans (List.takeWhile_sublist _)

/-- What there is to say about the tags of a source. -/
def problemsOf (t : Target) (cs : List Char) : List Diagnostic :=
  let tags := (commentsOf t cs).flatMap (·.tags)
  (DocComment.readAll t.file cs).2 ++ (ImportTable.ofTags t.file tags).2 ++
    tags.flatMap (tagDiagnostics t (tableOf t cs))

/-- A conversion succeeds with the headers of the source. It splices what they are written as, and
it says what there is to say about tags and headers. -/
theorem convert_eq_ok {t : Target} {source : String} {c : Conversion}
    (h : convert t source = .ok c) :
    ∃ headers, Header.find t.language source.toList = .ok headers ∧
      c.text.toList = splice source.toList 0 (headers.map (editOf t source.toList)) ∧
      c.diagnostics = Diagnostic.sort (problemsOf t source.toList ++
        headers.flatMap fun k => (writtenHeader t source.toList k).2) := by
  simp only [convert] at h
  cases hf : Header.find t.language source.toList with
  | error e => rw [hf] at h; cases h
  | ok headers =>
    rw [hf] at h
    cases h
    refine ⟨headers, rfl, ?_, ?_⟩
    · rw [String.toList_ofList]
      change splice _ 0 ((edits t (tableOf t _) _ (commentsOf t _) headers).map _) = _
      rw [edits_eq, List.map_map]
      rfl
    · change Diagnostic.sort (problemsOf t _ ++
        (edits t (tableOf t _) _ (commentsOf t _) headers).flatMap _) = _
      rw [edits_eq, List.flatMap_map]

/-! ## Weaving -/

/-- Gaps and texts in turn, a gap at either end. -/
def weave : (gaps texts : List (List Char)) → List Char
  | gap :: gaps, text :: texts => gap ++ text ++ weave gaps texts
  | gaps, _ => gaps.flatten

/-- The text from `cursor` on that lies outside of some stretches. -/
def gapsOf (cs : List Char) (cursor : Nat) : List Edit → List (List Char)
  | [] => [cs.drop cursor]
  | e :: rest => Source.slice cs cursor e.start :: gapsOf cs e.stop rest

/-- The stretch of an edit as it is in the source. -/
def stretchOf (cs : List Char) (e : Edit) : List Char :=
  Source.slice cs e.start e.stop

theorem splice_eq_weave (cs : List Char) (es : List Edit) :
    ∀ cursor, splice cs cursor es = weave (gapsOf cs cursor es) (es.map (·.text)) := by
  induction es with
  | nil => intro cursor; simp [splice, gapsOf, weave]
  | cons e es ih => intro cursor; simp [splice, gapsOf, weave, ih]

/-- A source goes on with the slice up to a later place. -/
theorem slice_append_drop (cs : List Char) {start stop : Nat} (h : start ≤ stop) :
    Source.slice cs start stop ++ cs.drop stop = cs.drop start := by
  rw [Source.slice, show stop = start + (stop - start) by omega, ← List.drop_drop,
    Nat.add_sub_cancel_left, List.take_append_drop]

/-- The gaps and the stretches of edits in order make up the source. -/
theorem drop_eq_weave (cs : List Char) (es : List Edit) (hw : ∀ e ∈ es, e.start ≤ e.stop)
    (hp : es.Pairwise fun a b => a.stop ≤ b.start) :
    ∀ cursor, (∀ e ∈ es, cursor ≤ e.start) →
      cs.drop cursor = weave (gapsOf cs cursor es) (es.map (stretchOf cs)) := by
  induction es with
  | nil => intro cursor _; simp [gapsOf, weave]
  | cons e es ih =>
    intro cursor hc
    obtain ⟨hle, hp'⟩ := List.pairwise_cons.1 hp
    have hrest := ih (fun e' he' => hw e' (by simp [he'])) hp' e.stop hle
    simp only [gapsOf, List.map_cons, weave]
    rw [← hrest, stretchOf, List.append_assoc, slice_append_drop cs (hw e (by simp)),
      slice_append_drop cs (hc e (by simp))]

/-! ## The headers of a source -/

theorem find_eq_ok {language : Language} {cs : List Char} {headers : List Header}
    (h : Header.find language cs = .ok headers) :
    ∃ targets found, Header.targetHeaders language cs = .ok targets ∧
      found.Perm (Header.recognised cs targets) ∧
      (found.Pairwise fun a b => a.start ≤ b.start) ∧
      headers = Header.keepFrom (Source.regions cs) 0 found := by
  unfold Header.find at h
  cases hf : Header.candidates language cs with
  | error e => rw [hf] at h; cases h
  | ok found =>
    rw [hf] at h
    cases h
    obtain ⟨targets, ht, hp, hs⟩ := Header.candidates_eq_ok hf
    exact ⟨targets, found, ht, hp, hs, rfl⟩

theorem within_recognised {language : Language} {cs : List Char} {targets : List Header}
    (ht : Header.targetHeaders language cs = .ok targets) {k : Header}
    (hk : k ∈ Header.recognised cs targets) : Header.Within cs.length k := by
  rcases List.mem_append.1 hk with hk | hk
  · exact Header.within_sourceHeaders hk
  · exact Header.within_targetHeaders ht hk

/-- The gaps and the stretches of the headers make up the source. -/
theorem eq_weave_of_find (t : Target) {cs : List Char} {headers : List Header}
    (h : Header.find t.language cs = .ok headers) :
    cs = weave (gapsOf cs 0 (headers.map (editOf t cs)))
      (headers.map fun k => Source.slice cs k.start k.stop) := by
  obtain ⟨targets, found, ht, hperm, -, rfl⟩ := find_eq_ok h
  have hw : ∀ k ∈ found, Header.Within cs.length k := fun k hk =>
    within_recognised ht (hperm.subset hk)
  have hsub := Header.keepFrom_sublist (Source.regions cs) found 0
  have hpair := Header.keepFrom_pairwise (Source.regions cs) (fun k hk => (hw k hk).1) 0
  have hweave := drop_eq_weave cs
    ((Header.keepFrom (Source.regions cs) 0 found).map (editOf t cs)) ?_ ?_ 0 (by simp)
  · rwa [List.drop_zero, List.map_map] at hweave
  · intro e he
    obtain ⟨k, hk, rfl⟩ := List.mem_map.1 he
    exact (hw k (hsub.subset hk)).1.le
  · exact List.pairwise_map.2 hpair

/-- A conversion changes headers only: the kept headers are stretches of the source in order, none
of which starts in a comment or literal; the result is the source with each of them replaced by what
it is written as; and a recognised header that is not kept starts in a comment or literal, or in a
kept header that starts no later. -/
theorem convert_changes_only_headers (t : Target) (source : String) (c : Conversion)
    (h : convert t source = .ok c) :
    let cs := source.toList
    ∃ targets headers,
      Header.targetHeaders t.language cs = .ok targets ∧
      Header.find t.language cs = .ok headers ∧
      -- The kept headers: recognised, inside the source, in order and apart, outside of regions.
      (∀ k ∈ headers, k ∈ Header.sourceHeaders cs ++ targets ∧ k.start < k.stop ∧
        k.stop ≤ cs.length ∧ Source.covers (Source.regions cs) k.start = false) ∧
      (headers.Pairwise fun a b => a.start < b.start ∧ a.stop ≤ b.start) ∧
      -- Source and result have the same gaps around them.
      (let gaps := gapsOf cs 0 (headers.map (editOf t cs))
       cs = weave gaps (headers.map fun k => Source.slice cs k.start k.stop) ∧
       c.text.toList = weave gaps (headers.map fun k => (writtenHeader t cs k).1.toList)) ∧
      -- The headers that are not kept.
      (∀ k ∈ Header.sourceHeaders cs ++ targets, k ∉ headers →
        Source.covers (Source.regions cs) k.start = true ∨
        ∃ kept ∈ headers, kept.start ≤ k.start ∧ k.start < kept.stop) := by
  intro cs
  obtain ⟨headers, hfind, htext, -⟩ := convert_eq_ok h
  obtain ⟨targets, found, ht, hperm, hsort, rfl⟩ := find_eq_ok hfind
  have hw : ∀ k ∈ found, Header.Within cs.length k := fun k hk =>
    within_recognised ht (hperm.subset hk)
  have hsub := Header.keepFrom_sublist (Source.regions cs) found 0
  have hpair := Header.keepFrom_pairwise (Source.regions cs) (fun k hk => (hw k hk).1) 0
  refine ⟨targets, _, ht, hfind, ?_, ?_, ⟨?_, ?_⟩, ?_⟩
  · intro k hk
    have hmem := hsub.subset hk
    exact ⟨hperm.subset hmem, (hw k hmem).1, (hw k hmem).2,
      (Header.keepFrom_start _ (fun k hk => (hw k hk).1) 0 k hk).2⟩
  · refine hpair.imp_of_mem fun {a b} ha _ hab => ⟨?_, hab⟩
    have := (hw a (hsub.subset ha)).1
    omega
  · exact eq_weave_of_find t hfind
  · rw [htext, splice_eq_weave, List.map_map]
    rfl
  · intro k hk hnot
    rcases Header.keepFrom_dropped (Source.regions cs) hsort 0 k
      (hperm.symm.subset hk) with h1 | h1 | h1 | h1
    · exact absurd h1 hnot
    · omega
    · exact .inl h1
    · exact .inr h1

/-- One header is written anew, the one in a comment is not. -/
theorem convert_changes_only_uncommented_header :
    let source := "/** @param \x7bstring\x7d s */\nfunction f(s) \x7b\x7d // function g(b)"
    ∃ c headers, convert { language := .go } source = .ok c ∧
      c.text = "/** @param \x7bstring\x7d s */\nfunc f(s string) \x7b\x7d // function g(b)" ∧
      Header.find .go source.toList = .ok headers ∧
      (let gaps := gapsOf source.toList 0 (headers.map (editOf { language := .go } source.toList))
       source.toList =
          weave gaps (headers.map fun k => Source.slice source.toList k.start k.stop) ∧
       c.text.toList = weave gaps
          (headers.map fun k => (writtenHeader { language := .go } source.toList k).1.toList)) ∧
      ∀ k ∈ Header.sourceHeaders source.toList, k ∉ headers →
        Source.covers (Source.regions source.toList) k.start = true ∨
        ∃ kept ∈ headers, kept.start ≤ k.start ∧ k.start < kept.stop := by
  intro source
  have hfind : Header.find .go source.toList = .ok (Header.keepFrom (Source.regions source.toList) 0
      (Header.sourceHeaders source.toList)) :=
    Header.find_of_recognised _ [] rfl (ok_of_toOption (by decide +kernel)) (by decide +kernel)
      (by rw [List.append_nil])
  have htext : (convert { language := .go } source).toOption.map (·.text) =
      some "/** @param \x7bstring\x7d s */\nfunc f(s string) \x7b\x7d // function g(b)" := by
    rw [convert, hfind]
    decide +kernel
  cases hc : convert { language := .go } source with
  | error e => simp [hc, Except.toOption] at htext
  | ok c =>
    rw [hc] at htext
    obtain ⟨targets, headers, -, hfind, -, -, hweave, hdropped⟩ :=
      convert_changes_only_headers { language := .go } source c hc
    refine ⟨c, headers, rfl, ?_, hfind, hweave, ?_⟩
    · simpa [Except.toOption] using htext
    · intro k hk
      exact hdropped k (List.mem_append_left _ hk)

end DocSignature.Conversion
