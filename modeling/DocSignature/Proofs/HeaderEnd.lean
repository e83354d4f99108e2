import DocSignature.Proofs.Frame
import DocSignature.Proofs.LiteralEnd

/-!
# Where a parameter list ends

A header starts outside of comments and literals. The end of its parameter list is looked for on the
pieces of the text, among which there are literals and no comments, so it can be found inside of a
comment. It is not when the list has no comments and all its literals are closed.
-/

namespace DocSignature.Header

open Source

/-! ## Clean text -/

/-- Holds of a literal that ends with its closing quote, on its line unless it is in backticks. -/
def isClosed : List Char → Bool
  | [] => false
  | quote :: body => literalEnd? quote body = some body.length

/-- Holds of pieces of a text whose literals are closed and between whose literals no comment
starts. -/
def isCleanRow : List Piece → Bool
  | [] => true
  | .literal text :: ps => isClosed text && isCleanRow ps
  | .char c :: ps =>
    !(c == '/' && ((chars ps).head? == some '/' || (chars ps).head? == some '*')) && isCleanRow ps

/-- Holds of a text without comments in which all literals are closed. -/
def isClean (cs : List Char) : Bool :=
  isCleanRow (pieces cs)

theorem regionAt?_closed {quote : Char} (hquote : isQuote quote = true) {body : List Char}
    (h : isClosed (quote :: body) = true) (rest : List Char) :
    regionAt? (quote :: body ++ rest) = some (.literal, (quote :: body).length) := by
  have hend : literalEnd? quote (body ++ rest) = some body.length :=
    @literalEnd?_append quote body [] _ (by simpa [isClosed] using h) (Nat.le_refl _) rest
  rw [List.cons_append, regionAt?_quote hquote, hend]
  rfl

/-- The regions in a clean row of pieces stop before the row does. -/
theorem regionsFrom_cleanRow {ps after : List Piece} (hclean : isCleanRow ps = true) :
    ∀ {cs : List Char}, pieces cs = ps ++ .char ')' :: after → ∀ pos,
      ∃ rs : List Region, (∀ r ∈ rs, r.stop ≤ pos + (chars ps).length) ∧
        Patch.regionsFrom pos cs =
          rs ++ Patch.regionsFrom (pos + (chars ps).length) (')' :: chars after) := by
  induction ps with
  | nil =>
    intro cs h pos
    refine ⟨[], by simp, ?_⟩
    rw [← chars_pieces cs, h]
    rfl
  | cons p ps ih =>
    intro cs h pos
    rcases cons_of_pieces h with ⟨c, rest, rfl, hc, rfl, htail⟩ | ⟨c, rest, rfl, hc, rfl, htail⟩
    · simp only [isCleanRow, Bool.and_eq_true, Bool.not_eq_true'] at hclean
      have hnone : regionAt? (c :: rest) = none := by
        have hrest : rest = chars ps ++ ')' :: chars after := by
          rw [← chars_pieces rest, ← htail]
          exact chars_append _ _
        by_cases hslash : c = '/'
        · subst hslash
          have hhead : (chars ps).head? ≠ some '/' ∧ (chars ps).head? ≠ some '*' := by
            simpa using hclean.1
          rw [hrest]
          cases hps : chars ps with
          | nil => rfl
          | cons d ds =>
            rw [hps] at hhead
            exact Patch.regionAt?_slash hhead.2 hhead.1
        · rw [Patch.regionAt?_other hslash, hc]
          rfl
      obtain ⟨rs, hrs, heq⟩ := ih hclean.2 htail.symm (pos + 1)
      simp only [chars_char, List.length_cons, ← Nat.add_assoc,
        Nat.add_right_comm pos (chars ps).length 1]
      exact ⟨rs, hrs, by rw [Patch.regionsFrom_none hnone, heq]⟩
    · simp only [isCleanRow, Bool.and_eq_true] at hclean
      have hregion := regionAt?_closed hc hclean.1 (rest.drop (literalLength c rest))
      obtain ⟨rs, hrs, heq⟩ := ih hclean.2 htail.symm
        (pos + (c :: rest.take (literalLength c rest)).length)
      simp only [chars_literal, List.length_append, ← Nat.add_assoc]
      refine ⟨⟨pos, pos + (c :: rest.take (literalLength c rest)).length, .literal⟩ :: rs,
        List.forall_mem_cons.2 ⟨Nat.le_add_right _ _, hrs⟩, ?_⟩
      have hsome := Patch.regionsFrom_some hregion pos
      rw [List.cons_append, List.take_append_drop] at hsome
      rw [hsome, heq, List.cons_append]

/-! ## The parentheses of a header -/

/-- The parentheses of the parameter list of a header: the first opening one behind its head, and
the one that is found to close it. -/
structure Parens (cs : List Char) (k : Header) (opening closing : Nat) : Prop where
  head : ∃ word rest, cs.drop k.start = word ++ '(' :: rest ∧
    (∀ c ∈ word, isHeadChar c = true) ∧ opening = k.start + word.length
  closes : closingParen? cs opening = some closing
  inside : closing < k.stop

theorem exists_parens_of_outlines {cs : List Char} {find : Text.Recogniser Head}
    {tail : List Char → Option Nat} (hf : Heads find) {o : Outline} (ho : o ∈ outlines cs find tail)
    (params : List Param) : ∃ opening closing, Parens cs (ofOutline o params) opening closing := by
  obtain ⟨hit, hhit, hoi⟩ := List.mem_filterMap.1 ho
  obtain ⟨front, rest, size, rfl, hstart, hstop, hfind⟩ := Text.hitsFrom_spec _ _ _ _ hit hhit
  obtain ⟨more, ⟨word, rfl, hword⟩, rfl⟩ := hf _ _ _ _ hfind
  have hopening : hit.stop - 1 = hit.start + word.length := by
    simp only [List.length_append, List.length_cons] at hstop
    omega
  simp only [outline?, hopening] at hoi
  split at hoi
  · cases hoi
  · rename_i closing hclosing
    obtain ⟨n, -, rfl⟩ := Option.map_eq_some_iff.1 hoi
    refine ⟨hit.start + word.length, closing, ⟨word, more, ?_, hword, rfl⟩, hclosing, ?_⟩
    · rw [ofOutline, hstart, Nat.zero_add, List.drop_left]
    · simp only [ofOutline]
      omega

/-- Every recognised header has its parentheses. -/
theorem exists_parens_of_recognised {language : Language} {cs : List Char} {targets : List Header}
    (ht : targetHeaders language cs = .ok targets) {k : Header} (hk : k ∈ recognised cs targets) :
    ∃ opening closing, Parens cs k opening closing := by
  rcases List.mem_append.1 hk with hk | hk
  · obtain ⟨o, ho, rfl⟩ := List.mem_map.1 hk
    exact exists_parens_of_outlines heads_source ho _
  · obtain ⟨o, ho, params, -, rfl⟩ := (mem_readTargets_iff _ ht k).1 hk
    exact exists_parens_of_outlines (heads_target language) ho params

theorem noMark_of_isHeadChar {c : Char} (h : isHeadChar c = true) :
    c ≠ '/' ∧ isQuote c = false := by
  have hne (d : Char) (hd : isHeadChar d = false) : c ≠ d := by
    rintro rfl
    rw [hd] at h
    cases h
  refine ⟨hne '/' (by decide), ?_⟩
  simp [isQuote, hne '\'' (by decide), hne '"' (by decide), hne '`' (by decide)]

section Parens
variable {cs : List Char} {k : Header} {opening closing : Nat} (h : Parens cs k opening closing)
include h

theorem Parens.exists_behind : ∃ rest, cs.drop opening = '(' :: rest := by
  obtain ⟨word, rest, hdrop, -, rfl⟩ := h.head
  exact ⟨rest, by rw [← List.drop_drop, hdrop, List.drop_left]⟩

/-- The pieces of the parameter list, and those behind its parenthesis. -/
theorem Parens.exists_list :
    ∃ list after, pieces (cs.drop (opening + 1)) = list ++ .char ')' :: after ∧
      pieces (cs.drop opening) = (.char '(' :: list) ++ .char ')' :: after ∧
      closing = opening + 1 + (chars list).length ∧
      slice cs (opening + 1) closing = chars list := by
  obtain ⟨rest, hrest⟩ := h.exists_behind
  have hbehind : cs.drop (opening + 1) = rest := by
    rw [← List.drop_drop, hrest, List.drop_one, List.tail_cons]
  obtain ⟨before, after, hsplit, rfl⟩ := closingAt?_split _ _ _ _ h.closes
  have hpieces := hsplit
  rw [hrest, pieces_char (by decide)] at hpieces
  cases before with
  | nil => cases hpieces
  | cons p list =>
    obtain ⟨rfl, hlist⟩ := List.cons.inj hpieces
    have hchars : chars list ++ ')' :: chars after = rest := by
      rw [← chars_pieces rest, show pieces rest = list ++ .char ')' :: after from hlist,
        chars_append, chars_char]
    have hclosing : opening + (chars (.char '(' :: list)).length =
        opening + 1 + (chars list).length := by
      simp only [chars_char, List.length_cons]
      omega
    refine ⟨list, after, by rw [hbehind]; exact hlist, hsplit, hclosing, ?_⟩
    rw [hclosing, slice, hbehind, Nat.add_sub_cancel_left, ← hchars, List.take_left]

/-- The regions of a source whose header starts in none: some before its list, and those from the
list on. -/
theorem Parens.exists_regions (hstart : covers (regions cs) k.start = false) :
    ∃ earlier : List Region, (∀ r ∈ earlier, r.stop ≤ opening) ∧
      regions cs = earlier ++ Patch.regionsFrom (opening + 1) (cs.drop (opening + 1)) := by
  obtain ⟨word, rest, hdrop, hword, rfl⟩ := h.head
  have hlen : (cs.take k.start).length = k.start := by
    apply List.length_take_of_le
    have := congrArg List.length hdrop
    simp only [List.length_drop, List.length_append, List.length_cons] at this
    omega
  have hcs : cs.take k.start ++ (word ++ '(' :: rest) = cs := by
    rw [← hdrop, List.take_append_drop]
  obtain ⟨earlier, before, hearlier, hregions⟩ := @Text.hitsFrom_append
    _ (fun _ cs => regionAt? cs) (word ++ '(' :: rest) (cs.take k.start) none 0 0
    (Nat.zero_le _) (by
      intro r hr hlt
      rw [Nat.zero_add, hlen] at hlt ⊢
      rw [hcs] at hr
      -- A region over the start of the header would cover it.
      by_contra hover
      have := (Patch.covers_iff cs k.start).2 ⟨r, hr, by omega, by omega⟩
      rw [hstart] at this
      cases this)
  rw [hcs, Nat.zero_add, hlen, Patch.hitsFrom_regionAt? before] at hregions
  rw [Nat.zero_add, hlen] at hearlier
  refine ⟨earlier, fun r hr => by have := hearlier r hr; omega, hregions.trans ?_⟩
  have hmark : ∀ c ∈ word ++ ['('], c ≠ '/' ∧ isQuote c = false := by
    intro c hc
    rcases List.mem_append.1 hc with hc | hc
    · exact noMark_of_isHeadChar (hword c hc)
    · obtain rfl := List.mem_singleton.1 hc
      decide
  have hquiet := Patch.regionsFrom_noMark hmark rest k.start
  rw [List.append_assoc, List.singleton_append, List.length_append, List.length_singleton,
    ← Nat.add_assoc] at hquiet
  have hbehind : cs.drop (k.start + word.length + 1) = rest := by
    rw [← List.drop_drop, ← List.drop_drop, hdrop, List.drop_left, List.drop_one, List.tail_cons]
  rw [hbehind, ← hquiet]
  rfl

end Parens

/-! ## The end of a header -/

/-- A region that starts where a literal piece of the text from `opening` on starts. -/
def Seen (cs : List Char) (opening : Nat) (r : Region) : Prop :=
  ∃ before text after, pieces (cs.drop opening) = before ++ .literal text :: after ∧
    r.start = opening + (chars before).length

/-- A literal that is seen as a piece stops where the piece does. -/
theorem stop_of_literal_piece {cs : List Char} {r : Region} (hr : r ∈ regions cs) {opening : Nat}
    {text : List Char} {before after : List Piece}
    (h : pieces (cs.drop opening) = before ++ .literal text :: after)
    (hstart : r.start = opening + (chars before).length) : r.stop = r.start + text.length := by
  obtain ⟨quote, body, rfl, hquote, hlen⟩ := literal_of_pieces h
  obtain ⟨size, hregion, hstop⟩ := Patch.regionAt?_drop_start hr
  have hdrop : cs.drop r.start = quote :: (body ++ chars after) := by
    rw [hstart, ← List.drop_drop, ← chars_pieces (cs.drop opening), h, chars_append, List.drop_left]
    rfl
  rw [hdrop, regionAt?_quote hquote] at hregion
  obtain ⟨n, hn, heq⟩ := Option.map_eq_some_iff.1 hregion
  simp only [Prod.mk.injEq] at heq
  have := literalLength_of_literalEnd? quote _ hn
  rw [hstop, List.length_cons]
  omega

/-- The closing parenthesis of a header that starts in no region is covered exactly by a region that
starts in the parameter list as no literal piece of it. -/
theorem Parens.covers_closing_iff {cs : List Char} {k : Header} {opening closing : Nat}
    (h : Parens cs k opening closing) (hstart : covers (regions cs) k.start = false) :
    covers (regions cs) closing = true ↔ ∃ r ∈ regions cs,
      opening < r.start ∧ r.start < closing ∧ closing < r.stop ∧ ¬Seen cs opening r := by
  obtain ⟨list, after, -, hpieces, hclosing, -⟩ := h.exists_list
  obtain ⟨earlier, hearlier, hregions⟩ := h.exists_regions hstart
  have hparen : cs.drop closing = ')' :: chars after := by
    rw [hclosing, Nat.add_assoc, ← List.drop_drop, ← chars_pieces (cs.drop opening), hpieces,
      chars_append, show 1 + (chars list).length = (chars (.char '(' :: list)).length by
        simp [Nat.add_comm], List.drop_left, chars_char]
  rw [Patch.covers_iff]
  constructor
  · rintro ⟨r, hr, hle, hlt⟩
    have hopening : opening < r.start := by
      have hmem := hr
      rw [hregions] at hmem
      rcases List.mem_append.1 hmem with hmem | hmem
      · have := hearlier r hmem
        omega
      · have := Text.hitsFrom_bounds Patch.sized_regionAt? _ _ _ _ r hmem
        omega
    have hne : r.start ≠ closing := by
      intro heq
      obtain ⟨size, hregion, -⟩ := Patch.regionAt?_drop_start hr
      rw [heq, hparen] at hregion
      cases hregion
    refine ⟨r, hr, hopening, by omega, hlt, ?_⟩
    rintro ⟨before, text, behind, hsplit, hbefore⟩
    have hstop := stop_of_literal_piece hr hsplit hbefore
    have hpiece := stop_le_of_start_lt (hsplit.symm.trans hpieces) (by
      simp only [chars_char, List.length_cons]
      omega)
    simp only [Piece.chars, chars_char, List.length_cons] at hpiece
    omega
  · rintro ⟨r, hr, -, hlt, hstop, -⟩
    exact ⟨r, hr, hlt.le, hstop⟩

/-- A clean parameter list ends outside of comments and literals. -/
theorem Parens.not_covers_closing {cs : List Char} {k : Header} {opening closing : Nat}
    (h : Parens cs k opening closing) (hstart : covers (regions cs) k.start = false)
    (hclean : isClean (slice cs (opening + 1) closing) = true) :
    covers (regions cs) closing = false := by
  obtain ⟨list, after, hpieces, -, hclosing, hslice⟩ := h.exists_list
  obtain ⟨earlier, hearlier, hregions⟩ := h.exists_regions hstart
  rw [hslice, isClean, pieces_chars_of_prefix hpieces] at hclean
  obtain ⟨rs, hrs, hrow⟩ := regionsFrom_cleanRow hclean hpieces (opening + 1)
  rw [← hclosing] at hrs hrow
  rw [Patch.regionsFrom_none (by rfl)] at hrow
  rw [Bool.eq_false_iff, Ne, Patch.covers_iff]
  rintro ⟨r, hr, hle, hlt⟩
  rw [hregions, hrow] at hr
  rcases List.mem_append.1 hr with hr | hr
  · have := hearlier r hr
    omega
  · rcases List.mem_append.1 hr with hr | hr
    · have := hrs r hr
      omega
    · have := Text.hitsFrom_bounds Patch.sized_regionAt? _ _ _ _ r hr
      omega

/-- A single header of the source language outside of regions is found. -/
theorem find_of_single {language : Language} {cs : List Char} {k : Header}
    (htargets : targetHeaders language cs = .ok []) (hsource : sourceHeaders cs = [k])
    (hstart : covers (regions cs) k.start = false) : find language cs = .ok [k] :=
  find_of_recognised [k] [] hsource htargets (List.pairwise_singleton _ _)
    (by simp [keepFrom, hstart])

/-- Every header that is found starts outside of comments and literals. The parenthesis that closes
its parameters lies in a comment or literal exactly when one starts among the parameters, where no
literal of theirs starts, and goes on behind the parenthesis. When the parameters have no comment
and their literals are closed, it lies in none. -/
theorem found_header_ends_covered_iff (language : Language) (cs : List Char)
    (headers : List Header) (h : find language cs = .ok headers) (k : Header) (hk : k ∈ headers) :
    covers (regions cs) k.start = false ∧ (∃ opening closing, Parens cs k opening closing) ∧
    ∀ opening closing, Parens cs k opening closing →
      (covers (regions cs) closing = true ↔ ∃ r ∈ regions cs,
        opening < r.start ∧ r.start < closing ∧ closing < r.stop ∧ ¬Seen cs opening r) ∧
      (isClean (slice cs (opening + 1) closing) = true → covers (regions cs) closing = false) := by
  obtain ⟨targets, found, ht, hperm, -, rfl⟩ := Conversion.find_eq_ok h
  have hw : ∀ k ∈ found, k.start < k.stop := fun k hk =>
    (Conversion.within_recognised ht (hperm.subset hk)).1
  have hstart := (keepFrom_start (regions cs) hw 0 k hk).2
  have hmem := (keepFrom_sublist (regions cs) found 0).subset hk
  exact ⟨hstart, exists_parens_of_recognised ht (hperm.subset hmem), fun opening closing hparens =>
    ⟨hparens.covers_closing_iff hstart, hparens.not_covers_closing hstart⟩⟩

/-- A parenthesis in a literal closes nothing. -/
theorem found_header_ends_behind_literal :
    let cs := "function f(a = ')', b = 1 / 2) \x7b\x7d".toList
    let k : Header := ⟨0, 30, "f", [⟨"a", some "')'"⟩, ⟨"b", some "1 / 2"⟩], false⟩
    find .python cs = .ok [k] ∧ Parens cs k 10 29 ∧
      isClean (slice cs 11 29) = true ∧ covers (regions cs) 29 = false := by
  intro cs k
  have hfind : find .python cs = .ok [k] := find_of_single (ok_of_toOption (by decide +kernel))
    (by decide +kernel) (by decide +kernel)
  have hclean : isClean (slice cs 11 29) = true := by decide +kernel
  have hparens : Parens cs k 10 29 :=
    ⟨⟨"function f".toList, "a = ')', b = 1 / 2) \x7b\x7d".toList, by decide +kernel,
      Text.forall_mem_of_all (by decide), by decide⟩, by decide +kernel, by decide⟩
  exact ⟨hfind, hparens, hclean, ((found_header_ends_covered_iff .python cs _ hfind k
    (by simp)).2.2 10 29 hparens).2 hclean⟩

/-- A parenthesis in a comment ends a header. -/
theorem found_header_ends_in_comment :
    let cs := "function f(a /* ) */) \x7b\x7d".toList
    let k : Header := ⟨0, 17, "f", [⟨"a /*", none⟩], false⟩
    find .python cs = .ok [k] ∧ Parens cs k 10 16 ∧ covers (regions cs) 16 = true := by
  intro cs k
  refine ⟨find_of_single (ok_of_toOption (by decide +kernel)) (by decide +kernel)
    (by decide +kernel), ?_, by decide +kernel⟩
  exact ⟨⟨"function f".toList, "a /* ) */) \x7b\x7d".toList, by decide +kernel,
    Text.forall_mem_of_all (by decide), by decide⟩, by decide +kernel, by decide⟩

end DocSignature.Header
