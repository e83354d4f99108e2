import DocSignature.Proofs.EditPatch
import DocSignature.Proofs.FoundAgain
import DocSignature.Proofs.PatchComments
import DocSignature.Proofs.Redraft

/-!
# Tidy sources

A source is tidy when its headers are plain, stand on their own and are the only heads outside of
comments and literals. The conversion of a tidy source is a patch that rewrites it.
-/

namespace DocSignature.Conversion

open Header (Draft sourceHead? targetHead? headWords isHeadChar mayStart BraceAhead)
open Source (slice docBlocks)

/-! ## Conditions -/

/-- A header on its own: one line without quotes, with a brace behind it, and no word in front of it
that starts a head and goes on up to it. -/
structure StandsAlone (language : Language) (cs : List Char) (k : Header) : Prop where
  quiet : ∀ c ∈ slice cs k.start k.stop, Patch.isQuiet c = true
  apart : ∀ i < k.start, (slice cs i k.start).all isHeadChar = true →
    ∀ word ∈ headWords language, ¬word.toList <+: slice cs i k.start
  brace : BraceAhead (cs.drop k.stop)

/-- Every head is in one of the headers, or in a comment or a literal where these are allowed. -/
def HeadsInside (find : Text.Recogniser Header.Head) (allowed : Prop) (cs : List Char)
    (headers : List Header) : Prop :=
  ∀ n < cs.length, (find (cs.take n).getLast? (cs.drop n)).isSome = true →
    (∃ k ∈ headers, k.start ≤ n ∧ n < k.stop) ∨
      (allowed ∧ Source.covers (Source.regions cs) n = true)

instance (find : Text.Recogniser Header.Head) (allowed : Prop) [Decidable allowed]
    (cs : List Char) (headers : List Header) : Decidable (HeadsInside find allowed cs headers) :=
  inferInstanceAs (Decidable (∀ n < cs.length, _ → _))

/-- A source whose headers are read back after they were written. -/
structure Tidy (t : Target) (cs : List Char) (headers : List Header) : Prop where
  plain : ∀ k ∈ headers, PlainHeader k
  alone : ∀ k ∈ headers, StandsAlone t.language cs k
  source : HeadsInside sourceHead? True cs headers
  target : HeadsInside (targetHead? t.language) (t.language ≠ .csharp) cs headers
  values : ∀ c ∈ commentsOf t cs, ∀ doc ∈ c.params, ∀ text ∈ doc.2.defaultText,
    Header.QuietDefault text.toList
  lines : ∀ block ∈ docBlocks cs, ∀ k ∈ headers, k.stop ≤ block.start →
    '\n' ∈ slice cs k.stop block.start

/-! ## Headers as edits -/

/-- At a header a head is recognised. -/
theorem head_of_find {language : Language} {cs : List Char} {headers : List Header}
    (h : Header.find language cs = .ok headers) {k : Header} (hk : k ∈ headers) :
    mayStart (cs.take k.start).getLast? = true ∧
      ∃ word ∈ headWords language, word.toList <+: cs.drop k.start := by
  obtain ⟨targets, found, ht, hperm, -, rfl⟩ := find_eq_ok h
  have hmem := hperm.subset ((Header.keepFrom_sublist _ found 0).subset hk)
  have hspec {find : Text.Recogniser Header.Head}
      (hstarts : Header.Starts find (headWords language))
      {hit : Text.Hit Header.Head} (hhit : hit ∈ Text.hits find cs) (hstart : k.start = hit.start) :
      mayStart (cs.take k.start).getLast? = true ∧
        ∃ word ∈ headWords language, word.toList <+: cs.drop k.start := by
    obtain ⟨front, rest, size, rfl, hplace, -, hfind⟩ := Text.hitsFrom_spec _ _ _ _ _ hhit
    rw [Nat.zero_add] at hplace
    rw [Option.or_none] at hfind
    rw [hstart, hplace, List.take_left, List.drop_left]
    exact hstarts _ _ _ hfind
  rcases List.mem_append.1 hmem with hsource | htarget
  · obtain ⟨o, ho, rfl⟩ := List.mem_map.1 hsource
    obtain ⟨hit, hhit, hfound⟩ := List.mem_filterMap.1 ho
    exact hspec (Header.starts_source_headWords language) hhit (Header.outline?_start hfound)
  · obtain ⟨o, ho, params, -, rfl⟩ := (Header.mem_readTargets_iff _ ht k).1 htarget
    obtain ⟨hit, hhit, hfound⟩ := List.mem_filterMap.1 ho
    exact hspec (Header.starts_target_headWords language) hhit (Header.outline?_start hfound)

theorem within_of_find {language : Language} {cs : List Char} {headers : List Header}
    (h : Header.find language cs = .ok headers) {k : Header} (hk : k ∈ headers) :
    Header.Within cs.length k := by
  obtain ⟨targets, found, ht, hperm, -, rfl⟩ := find_eq_ok h
  exact within_recognised ht (hperm.subset ((Header.keepFrom_sublist _ found 0).subset hk))

theorem inOrder_of_find (t : Target) {cs : List Char} {headers : List Header}
    (h : Header.find t.language cs = .ok headers) :
    Patch.InOrder cs 0 (headers.map (editOf t cs)) := by
  refine ⟨fun _ _ => Nat.zero_le _, ?_, ?_⟩
  · intro e he
    obtain ⟨k, hk, rfl⟩ := List.mem_map.1 he
    obtain ⟨hlt, hle⟩ := within_of_find h hk
    exact ⟨hlt.le, hle⟩
  · obtain ⟨targets, found, ht, hperm, -, rfl⟩ := find_eq_ok h
    exact List.pairwise_map.2 (Header.keepFrom_pairwise _
      (fun k hk => (within_recognised ht (hperm.subset hk)).1) 0)

/-- The patch that a conversion is. -/
def patchOf (t : Target) (cs : List Char) (headers : List Header) : List Cell :=
  Patch.ofEdits cs 0 (headers.map (editOf t cs))

section Patch
variable {t : Target} {cs : List Char} {headers : List Header}
  (hfind : Header.find t.language cs = .ok headers)
include hfind

theorem text_old_patchOf : Patch.text .old (patchOf t cs headers) = cs :=
  Patch.text_old_ofEdits _ (inOrder_of_find t hfind)

theorem length_take_start {k : Header} (hk : k ∈ headers) :
    (cs.take k.start).length = k.start := by
  obtain ⟨hlt, hle⟩ := within_of_find hfind hk
  rw [List.length_take]
  omega

/-- Every swap is one of the headers. -/
theorem header_of_swap {before after : List Cell} {o n : List Char}
    (hp : patchOf t cs headers = before ++ .swap o n :: after) :
    ∃ k ∈ headers, Patch.text .old before = cs.take k.start ∧ o = slice cs k.start k.stop ∧
      n = (writtenHeader t cs k).1.toList ∧ Patch.text .old after = cs.drop k.stop := by
  have horder := inOrder_of_find t hfind
  obtain ⟨e, he, rfl, rfl, hplace⟩ := Patch.edit_of_swap _ horder hp
  obtain ⟨hle, hlen⟩ := horder.bounds e he
  obtain ⟨k, hk, rfl⟩ := List.mem_map.1 he
  simp only [editOf] at hle hlen hplace
  have hcs : cs = Patch.text .old before ++
      (slice cs k.start k.stop ++ Patch.text .old after) := by
    conv_lhs => rw [← text_old_patchOf hfind, hp]
    simp [Cell.text, editOf]
  have hstart : (Patch.text .old before).length = k.start := by omega
  have hdrop : cs.drop k.start = slice cs k.start k.stop ++ Patch.text .old after := by
    conv_lhs => rw [hcs]
    rw [List.drop_left' hstart]
  refine ⟨k, hk, ?_, rfl, rfl, ?_⟩
  · conv_rhs => rw [hcs]
    rw [List.take_left' hstart]
  · have hstretch : (slice cs k.start k.stop).length = k.stop - k.start :=
      Patch.length_slice cs hlen
    rw [show k.stop = k.start + (k.stop - k.start) by omega, ← List.drop_drop, hdrop,
      List.drop_left' hstretch]

end Patch

/-! ## Comments that were read -/

theorem read_commentsOf (t : Target) (cs : List Char) :
    ∀ c ∈ commentsOf t cs, ∀ tag ∈ c.tags, tag.WasRead := by
  intro c hc tag htag
  obtain ⟨found, hfound, rfl⟩ := List.mem_map.1 hc
  obtain ⟨block, -, rfl⟩ := List.mem_map.1 hfound
  exact Tag.wasRead_of_mem_readAll htag

theorem named_tableOf (t : Target) (cs : List Char) : (tableOf t cs).Named := by
  apply ImportTable.named_ofTags
  intro tag htag
  obtain ⟨c, hc, htag⟩ := List.mem_flatMap.1 htag
  exact read_commentsOf t cs c hc tag htag

/-! ## Drafts of the headers of a source -/

/-- What a header of a source is written from. -/
def headerDraft (t : Target) (cs : List Char) (k : Header) : Draft :=
  draftOf t (tableOf t cs) (precedingComments cs (commentsOf t cs) k.start) k

theorem toList_writtenHeader (t : Target) (cs : List Char) (k : Header) :
    (writtenHeader t cs k).1.toList = (headerDraft t cs k).text t.language :=
  toList_renderHeader t (tableOf t cs) _ k

section Drafts
variable {t : Target} {cs : List Char} {headers : List Header} (h : Tidy t cs headers)
include h

theorem Tidy.plainComments (offset : Nat) :
    PlainComments (precedingComments cs (commentsOf t cs) offset) where
  read c hc := read_commentsOf t cs c ((precedingComments_sublist _ _ _).subset hc)
  values c hc := h.values c ((precedingComments_sublist _ _ _).subset hc)

variable (ht : t.typeMap = [])
include ht

theorem Tidy.plain_headerDraft {k : Header} (hk : k ∈ headers) :
    (headerDraft t cs k).Plain t.language :=
  plain_draftOf ht (named_tableOf t cs) (h.plainComments k.start) (h.plain k hk)

theorem Tidy.quiet_written {k : Header} (hk : k ∈ headers) :
    Patch.Quiet (writtenHeader t cs k).1.toList := by
  rw [toList_writtenHeader]
  refine (h.plain_headerDraft ht hk).quiet fun r hr text htext => ?_
  exact
    (quietDefault_renderedParam t _ (h.plainComments k.start) (h.plain k hk) hr text htext).quiet

end Drafts

/-! ## The patch of a tidy source -/

section Tidy
variable {t : Target} {cs : List Char} {headers : List Header}
  (hfind : Header.find t.language cs = .ok headers)
include hfind

/-- A header starts like a word. -/
theorem quiet_stretch {k : Header} (hk : k ∈ headers) (halone : StandsAlone t.language cs k) :
    Patch.Quiet (slice cs k.start k.stop) := by
  obtain ⟨-, word, hword, hbegins⟩ := head_of_find hfind hk
  obtain ⟨c, rest, hc, hstart⟩ := (Header.words_headWords t.language).start word hword
  obtain ⟨more, hmore⟩ := hbegins
  have hlt := (within_of_find hfind hk).1
  refine ⟨⟨c, (rest ++ more).take (k.stop - k.start - 1), ?_, hstart⟩, halone.quiet⟩
  rw [slice, ← hmore, hc, List.cons_append, List.take_cons (by omega)]

/-- Headers start outside of comments and literals. -/
theorem covers_of_find {k : Header} (hk : k ∈ headers) :
    Source.covers (Source.regions cs) k.start = false := by
  obtain ⟨targets, found, ht, hperm, -, rfl⟩ := find_eq_ok hfind
  exact (Header.keepFrom_start _
    (fun k hk => (within_recognised ht (hperm.subset hk)).1) 0 k hk).2

variable (ht : t.typeMap = []) (htidy : Tidy t cs headers)
include ht htidy

theorem sound_patchOf : Patch.Sound (patchOf t cs headers) := by
  have hquiet : ∀ o n, .swap o n ∈ patchOf t cs headers → Patch.Quiet o ∧ Patch.Quiet n := by
    intro o n hmem
    obtain ⟨before, after, hp⟩ := List.append_of_mem hmem
    obtain ⟨k, hk, -, rfl, rfl, -⟩ := header_of_swap hfind hp
    exact ⟨quiet_stretch hfind hk (htidy.alone k hk), htidy.quiet_written ht hk⟩
  refine ⟨hquiet, ?_⟩
  intro before o n after hp
  obtain ⟨k, hk, -, -, -, hafter⟩ := header_of_swap hfind hp
  apply Patch.brace_of_braceAhead
  · intro o' n' hmem
    exact (hquiet o' n' (by rw [hp]; simp [hmem])).1.start
  · rw [hafter]
    exact (htidy.alone k hk).brace

omit ht htidy in
theorem clear_patchOf : Patch.Clear (patchOf t cs headers)
    (Source.regions (Patch.text .old (patchOf t cs headers))) := by
  intro before o n after hp r hr hinside
  obtain ⟨k, hk, hbefore, -, -, -⟩ := header_of_swap hfind hp
  have hplace : (Patch.text .old before).length = k.start := by
    rw [hbefore, length_take_start hfind hk]
  rw [text_old_patchOf hfind] at hr
  have hcovered := (Patch.covers_iff cs k.start).2 ⟨r, hr, hplace ▸ hinside⟩
  rw [covers_of_find hfind hk] at hcovered
  cases hcovered

omit ht in
theorem apart_patchOf : Patch.Apart (headWords t.language) (patchOf t cs headers) where
  last before c o n after hp := by
    have hp' : patchOf t cs headers = (before ++ [.kept c]) ++ .swap o n :: after := by
      rw [hp, List.append_assoc]
      rfl
    obtain ⟨k, hk, hbefore, -⟩ := header_of_swap hfind hp'
    have hmay := (head_of_find hfind hk).1
    rw [← hbefore] at hmay
    simpa [Cell.text] using hmay
  words before xs o n after hp := by
    rw [← List.append_assoc] at hp
    obtain ⟨k, hk, hbefore, -⟩ := header_of_swap hfind hp
    intro hhead word hword hbegins
    have hne : xs ≠ [] := by
      rintro rfl
      obtain ⟨c, rest, hc, -⟩ := (Header.words_headWords t.language).start word hword
      simp [hc] at hbegins
    have hlen := congrArg List.length hbefore
    rw [Patch.text_append, Patch.text_kept, List.length_append,
      length_take_start hfind hk] at hlen
    have hlt := List.length_pos_iff.2 hne
    have hslice : slice cs (Patch.text .old before).length k.start = xs := by
      rw [slice, ← List.drop_take, ← hbefore, Patch.text_append, Patch.text_kept, List.drop_left]
    refine (htidy.alone k hk).apart (Patch.text .old before).length (by omega) ?_ word hword ?_
    · rw [hslice, List.all_eq_true]
      exact hhead
    · rwa [hslice]

theorem headsCovered_patchOf {find : Text.Recogniser Header.Head} {allowed : Prop}
    (hinside : HeadsInside find allowed cs headers) :
    Patch.HeadsCovered find allowed (patchOf t cs headers) := by
  intro before c after hp r hr
  have hold := text_old_patchOf hfind
  have hcs : cs = Patch.text .old before ++ Patch.text .old (.kept c :: after) := by
    conv_lhs => rw [← hold, hp, Patch.text_append]
  have hlen : (Patch.text .old before).length < cs.length := by
    rw [hcs]
    simp [Cell.text]
  have hplace := hinside _ hlen (by
    conv_lhs => rw [hcs, List.take_left, List.drop_left, hr]
    rfl)
  rw [hold]
  refine hplace.resolve_left ?_
  -- The edit of the header is a swap, and no character in it stays.
  rintro ⟨k, hk, hle, hlt⟩
  obtain ⟨b, a, hb, hstart⟩ := Patch.swap_of_edit _ (inOrder_of_find t hfind)
    (List.mem_map_of_mem (f := editOf t cs) hk)
  simp only [editOf] at hb hstart
  have hout := (sound_patchOf hfind ht htidy).kept_outside hp hb (by omega)
  rw [Patch.length_slice cs (within_of_find hfind hk).2] at hout
  omega

/-- The conversion of a tidy source is a patch that writes drafts. -/
theorem rewrites_patchOf : Patch.Rewrites t.language (patchOf t cs headers) where
  sound := sound_patchOf hfind ht htidy
  clear := clear_patchOf hfind
  source := headsCovered_patchOf hfind ht htidy htidy.source
  target := headsCovered_patchOf hfind ht htidy htidy.target
  apart := apart_patchOf hfind htidy
  draft before o n after hp := by
    obtain ⟨k, hk, -, -, rfl, -⟩ := header_of_swap hfind hp
    exact ⟨headerDraft t cs k, htidy.plain_headerDraft ht hk, toList_writtenHeader t cs k⟩

omit ht in
/-- Behind the headers, doc comments start on lines of their own. -/
theorem onOwnLine_of_tidy {spots : List Patch.Spot}
    (hm : Patch.Marked (patchOf t cs headers) spots) :
    ∀ s ∈ Patch.docSpots spots, Patch.OnOwnLine s.before := by
  intro s hs front o n xs hbefore
  obtain ⟨hspot, hkind⟩ := List.mem_filter.1 hs
  obtain ⟨after, hp⟩ := hm.spot s hspot
  rw [hbefore, List.append_assoc, List.append_assoc, List.cons_append] at hp
  obtain ⟨k, hk, hfront, rfl, -, hbehind⟩ := header_of_swap hfind hp
  obtain ⟨hlt, hle⟩ := within_of_find hfind hk
  have hregion : s.region .old ∈ Source.regions cs := by
    rw [← text_old_patchOf hfind, hm.regions]
    exact List.mem_map_of_mem hspot
  have hblock : _ ∈ docBlocks cs := List.mem_map_of_mem (List.mem_filter.2 ⟨hregion, hkind⟩)
  have hstart : (s.region .old).start = k.stop + xs.length := by
    simp only [Patch.Spot.region, hbefore, Patch.text_append, Patch.text_cons, Cell.text,
      Patch.text_kept, hfront, List.length_append, length_take_start hfind hk,
      Patch.length_slice cs hle]
    omega
  have hline := htidy.lines _ hblock k hk (by simp only [hstart]; omega)
  simp only [hstart, slice, ← hbehind, Nat.add_sub_cancel_left, Patch.text_append,
    Patch.text_kept, List.take_left] at hline
  exact hline

end Tidy

end DocSignature.Conversion
