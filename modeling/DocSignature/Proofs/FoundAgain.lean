import DocSignature.Proofs.Draft
import DocSignature.Proofs.PatchHeads
import DocSignature.Proofs.Total

/-!
# Headers that are found again

A patch that writes drafts in the place of headers. In the new text the headers that are to be
written anew are the drafts, each where its swap is.
-/

namespace DocSignature.Patch

open Header

/-- A patch that writes plain drafts, with all heads that stay in comments and literals. -/
structure Rewrites (language : Language) (p : List Cell) : Prop where
  sound : Sound p
  clear : Clear p (Source.regions (text .old p))
  source : HeadsCovered sourceHead? True p
  -- C# reads the parameters of every head, be it in a comment.
  target : HeadsCovered (targetHead? language) (language ≠ .csharp) p
  apart : Apart (headWords language) p
  draft : ∀ before o n after, p = before ++ .swap o n :: after →
    ∃ d : Draft, d.Plain language ∧ n = d.text language

/-- A header of the target language that starts with a swap. -/
def AtSwap (p : List Cell) (targets : List Header) (k : Header) : Prop :=
  k ∈ targets ∧ ∃ before o n after, p = before ++ .swap o n :: after ∧
    k.start = (text .new before).length

namespace Rewrites

variable {language : Language} {p : List Cell} (h : Rewrites language p)
include h

/-- A head may start where a swap starts. -/
theorem mayStart {before after : List Cell} {o n : List Char}
    (hp : p = before ++ .swap o n :: after) : mayStart (text .new before).getLast? = true := by
  rcases List.eq_nil_or_concat before with rfl | ⟨front, cell, rfl⟩
  · rfl
  · rw [List.concat_eq_append, List.append_assoc] at hp
    cases cell with
    | kept c => simpa [Cell.text] using h.apart.last front c o n after hp
    | swap o' n' =>
      obtain ⟨c, rest, hrest, -⟩ := (hp ▸ h.sound).suffix.kept_behind
      cases hrest

theorem braceAhead {before after : List Cell} {o n : List Char}
    (hp : p = before ++ .swap o n :: after) : BraceAhead (text .new after) := by
  obtain ⟨blanks, more, rfl, hblanks⟩ := h.sound.brace before o n after hp
  rw [BraceAhead, text_append, text_kept, Text.trimLeft_append hblanks]
  rfl

/-! ## Heads -/

/-- The head of a draft, as it is found. -/
theorem hit_mem {before after : List Cell} {o : List Char} {d : Draft} (hd : d.Plain language)
    (hp : p = before ++ .swap o (d.text language) :: after) :
    ⟨(text .new before).length, (text .new before).length + ((d.opening language).length + 1),
      ⟨d.name, marksAsync language d.isAsync⟩⟩ ∈
      Text.hits (targetHead? language) (text .new p) := by
  have htext : text .new p = text .new before ++ (d.text language ++ text .new after) := by
    rw [hp, text_append, text_cons, Cell.text]
  have hne : d.text language ++ text .new after ≠ [] := by
    rw [Draft.text_eq]
    simp
  have hfind : targetHead? language ((text .new before).getLast?.or none)
      (d.text language ++ text .new after) =
        some (⟨d.name, marksAsync language d.isAsync⟩, (d.opening language).length + 1) := by
    rw [Option.or_none]
    exact hd.targetHead? (h.mayStart hp) _
  -- No head in front of the draft reaches into it.
  have hfree : ∀ xs ys head size, text .new before = xs ++ ys → ys ≠ [] →
      targetHead? language (xs.getLast?.or none) (ys ++ (d.text language ++ text .new after)) =
        some (head, size) → size ≤ ys.length := by
    intro xs ys head size hfront hys hfound
    have hlen := List.length_pos_iff.2 hys
    rw [Option.or_none] at hfound
    have hreach := h.sound.head_reach (words_headWords language) h.apart (heads_target language)
      (local_target language) (starts_target_headWords language)
      (by rw [htext, hfront, List.append_assoc]) hfound hp
    rw [hfront, List.length_append] at hreach
    have := hreach (by omega)
    omega
  have hmem := Text.mem_hitsFrom _ hne (text .new before) none 0 0 (Nat.zero_le _) hfind hfree
  rw [Text.hits, htext]
  simpa using hmem

/-- A head of the target language is in a comment or a literal, or it is that of a draft. -/
theorem target_hit {hit : Text.Hit Head}
    (hhit : hit ∈ Text.hits (targetHead? language) (text .new p)) :
    (language ≠ .csharp ∧
      Source.covers (Source.regions (text .new p)) hit.start = true) ∨
    ∃ before o n after, p = before ++ .swap o n :: after ∧
      hit.start = (text .new before).length := by
  obtain ⟨spots, hmarked⟩ := h.sound.exists_marked h.clear
  obtain ⟨front, rest, size, htext, hstart, hstop, hfind⟩ := Text.hitsFrom_spec _ _ _ _ _ hhit
  rw [Option.or_none] at hfind
  rw [Nat.zero_add] at hstart
  rw [hstart]
  rcases h.sound.head_place (words_headWords language) h.apart (heads_target language)
    (local_target language) (starts_target_headWords language) h.target hmarked htext hfind with
    hcovered | ⟨before, o, n, after, i, hp, hplace, hi⟩
  · exact .inl hcovered
  · refine .inr ⟨before, o, n, after, hp, ?_⟩
    obtain ⟨d, hd, rfl⟩ := h.draft before o n after hp
    by_contra hne
    -- The head of the draft is found in front of this one, which then has a parenthesis of its own.
    have hfirst := Text.hits_apart (heads_target language).sized (h.hit_mem hd hp) hhit
      (by simp only; omega)
    have hbehind : (d.opening language).length + 1 ≤ i := by
      rcases hfirst with heq | hle
      · have := congrArg Text.Hit.start heq
        simp only at this
        omega
      · simp only at hle
        omega
    obtain ⟨more, ⟨word, rfl, -⟩, hsize⟩ := heads_target language _ _ _ _ hfind
    have hdrop : (d.text language).drop i ++ text .new after = word ++ '(' :: more := by
      have := congrArg (List.drop front.length) htext
      rw [List.drop_left, hplace, hp, text_append, text_cons, Cell.text, List.drop_append,
        List.drop_eq_nil_of_le (by omega), List.nil_append, Nat.add_sub_cancel_left,
        List.drop_append_of_le_length (by omega)] at this
      exact this
    simp only [List.length_append, List.length_cons] at hsize
    have htake := congrArg (List.take (word.length + 1)) hdrop
    rw [List.take_append_of_le_length (by rw [List.length_drop]; omega)] at htake
    refine hd.paren_drop hbehind (List.take_subset (word.length + 1) _ ?_)
    rw [htake]
    simp [List.take_append]

/-- A head of the source language is in a comment or a literal, or inside of a draft. -/
theorem source_hit {hit : Text.Hit Head}
    (hhit : hit ∈ Text.hits sourceHead? (text .new p)) :
    Source.covers (Source.regions (text .new p)) hit.start = true ∨
    ∃ before o n after, p = before ++ .swap o n :: after ∧
      (text .new before).length < hit.start ∧ hit.start < (text .new before).length + n.length := by
  obtain ⟨spots, hmarked⟩ := h.sound.exists_marked h.clear
  obtain ⟨front, rest, size, htext, hstart, hstop, hfind⟩ := Text.hitsFrom_spec _ _ _ _ _ hhit
  have hsize := (heads_source.sized _ _ _ _ hfind).1
  rw [Option.or_none] at hfind
  rw [Nat.zero_add] at hstart
  rw [hstart]
  rcases h.sound.head_place (words_headWords language) h.apart heads_source local_source
    (starts_source_headWords language) h.source hmarked htext hfind with
    ⟨-, hcovered⟩ | ⟨before, o, n, after, i, hp, hplace, hi⟩
  · exact .inl hcovered
  · refine .inr ⟨before, o, n, after, hp, ?_, by omega⟩
    rcases Nat.eq_zero_or_pos i with rfl | hpos
    · obtain ⟨d, hd, rfl⟩ := h.draft before o n after hp
      have hsplit : text .new before ++ (d.text language ++ text .new after) = front ++ rest := by
        rw [← htext, hp, text_append, text_cons, Cell.text]
      obtain ⟨-, rfl⟩ := List.append_inj hsplit (by omega)
      rw [Draft.sourceHead?_text] at hfind
      cases hfind
    · omega

/-! ## Headers -/

/-- The outline of a draft, as it is found. -/
theorem outline_of_hit {before after : List Cell} {o : List Char} {d : Draft}
    (hd : d.Plain language) (hp : p = before ++ .swap o (d.text language) :: after)
    {hit : Text.Hit Head} (hhit : hit ∈ Text.hits (targetHead? language) (text .new p))
    (hstart : hit.start = (text .new before).length) :
    outline? (text .new p) (tail? language) hit =
      some ⟨(text .new before).length, (text .new before).length + (d.text language).length,
        ⟨d.name, marksAsync language d.isAsync⟩, joined ((d.list language).map String.toList)⟩ := by
  have hlt := (Text.hits_bounds (heads_target language).sized hhit).1
  have hsame := (Text.hits_apart (heads_target language).sized hhit (h.hit_mem hd hp)
    hstart.le).resolve_right (by simp only; omega)
  rw [hsame, hp, text_append, text_cons, Cell.text]
  exact hd.outline? _ _ (h.braceAhead hp)

/-- The parameters of every header of the target language can be read. -/
theorem exists_targetHeaders : ∃ targets, targetHeaders language (text .new p) = .ok targets := by
  cases htargets : targetHeaders language (text .new p) with
  | ok targets => exact ⟨targets, rfl⟩
  | error e =>
    obtain ⟨hcsharp, -⟩ := (targetHeaders_eq_error_iff language _).1 ⟨e, htargets⟩
    obtain ⟨o, ho, e', he'⟩ := (readTargets_eq_error_iff language _).1 ⟨e, htargets⟩
    obtain ⟨hit, hhit, houtline⟩ := List.mem_filterMap.1 ho
    rcases h.target_hit hhit with ⟨hne, -⟩ | ⟨before, old, n, after, hp, hstart⟩
    · exact absurd hcsharp hne
    · obtain ⟨d, hd, rfl⟩ := h.draft before old n after hp
      rw [h.outline_of_hit hd hp hhit hstart] at houtline
      cases houtline
      rw [hd.targetParams] at he'
      cases he'

section Targets
variable {targets : List Header} (htargets : targetHeaders language (text .new p) = .ok targets)
include htargets

/-- A header of the target language that starts with a draft is that of the draft. -/
theorem eq_header {k : Header} (hk : k ∈ targets) {before after : List Cell} {o : List Char}
    {d : Draft} (hd : d.Plain language) (hp : p = before ++ .swap o (d.text language) :: after)
    (hstart : k.start = (text .new before).length) :
    k = d.header language (text .new before).length := by
  obtain ⟨outline, houtline, params, hparams, rfl⟩ := (mem_readTargets_iff _ htargets k).1 hk
  obtain ⟨hit, hhit, hfound⟩ := List.mem_filterMap.1 houtline
  rw [h.outline_of_hit hd hp hhit ((outline?_start hfound).symm.trans hstart)] at hfound
  cases hfound
  rw [hd.targetParams] at hparams
  cases hparams
  rfl

/-- The header of a draft is found. -/
theorem header_mem {before after : List Cell} {o : List Char} {d : Draft} (hd : d.Plain language)
    (hp : p = before ++ .swap o (d.text language) :: after) :
    d.header language (text .new before).length ∈ targets := by
  rw [mem_readTargets_iff _ htargets]
  have hmem := h.hit_mem hd hp
  exact ⟨_, List.mem_filterMap.2 ⟨_, hmem, h.outline_of_hit hd hp hmem rfl⟩, _, hd.targetParams,
    rfl⟩

theorem atSwap_apart {a b : Header} (ha : AtSwap p targets a) (hb : AtSwap p targets b)
    (hle : a.start ≤ b.start) : a.stop ≤ b.start ∨ a.stop = b.stop := by
  obtain ⟨ha, before, o, n, after, hp, hstart⟩ := ha
  obtain ⟨hb, before', o', n', after', hp', hstart'⟩ := hb
  obtain ⟨d, hd, rfl⟩ := h.draft before o n after hp
  have heq := h.eq_header htargets ha hd hp hstart
  rw [hstart, hstart'] at hle
  rcases h.sound.cell_cases hp hp' hle with ⟨rfl, -⟩ | hbehind
  · right
    rw [heq, h.eq_header htargets hb hd hp hstart']
  · left
    rw [heq, hstart']
    exact hbehind

end Targets

/-- The headers of the new text are the drafts. -/
theorem header_of_find {headers : List Header}
    (hfind : find language (text .new p) = .ok headers) {k : Header} (hk : k ∈ headers) :
    ∃ before o n after, p = before ++ .swap o n :: after ∧
      ∀ d : Draft, d.Plain language → n = d.text language →
        k = d.header language (text .new before).length := by
  obtain ⟨spots, hmarked⟩ := h.sound.exists_marked h.clear
  obtain ⟨targets, found, htargets, hperm, hsort, rfl⟩ := Conversion.find_eq_ok hfind
  -- The search for source forms finds nothing new: its heads are covered or inside of drafts.
  have hall : ∀ k ∈ found, AtSwap p targets k ∨
      Source.covers (Source.regions (text .new p)) k.start = true ∨ k.start < 0 ∨
      ∃ s ∈ found, AtSwap p targets s ∧ s.start < k.start ∧ k.start < s.stop := by
    intro k hk
    rcases List.mem_append.1 (hperm.subset hk) with hsource | htarget
    · obtain ⟨outline, houtline, rfl⟩ := List.mem_map.1 hsource
      obtain ⟨hit, hhit, hfound⟩ := List.mem_filterMap.1 houtline
      have hstart := outline?_start hfound
      rcases h.source_hit hhit with hcovered | ⟨before, o, n, after, hp, hlo, hhi⟩
      · exact .inr (.inl (by rwa [← hstart] at hcovered))
      · obtain ⟨d, hd, rfl⟩ := h.draft before o n after hp
        have hmem := h.header_mem htargets hd hp
        rw [← hstart] at hlo hhi
        exact .inr (.inr (.inr ⟨_, hperm.symm.subset (List.mem_append_right _ hmem),
          ⟨hmem, before, o, _, after, hp, rfl⟩, hlo, hhi⟩))
    · obtain ⟨outline, houtline, params, -, rfl⟩ := (mem_readTargets_iff _ htargets k).1 htarget
      obtain ⟨hit, hhit, hfound⟩ := List.mem_filterMap.1 houtline
      have hstart := outline?_start hfound
      rcases h.target_hit hhit with ⟨-, hcovered⟩ | ⟨before, o, n, after, hp, hplace⟩
      · exact .inr (.inl (by rwa [← hstart] at hcovered))
      · exact .inl ⟨htarget, before, o, n, after, hp, hstart.trans hplace⟩
  have huncovered : ∀ k, AtSwap p targets k →
      Source.covers (Source.regions (text .new p)) k.start = false := by
    rintro k ⟨-, before, o, n, after, hp, hstart⟩
    rw [hstart]
    exact h.sound.covers_swap hmarked hp
  obtain ⟨hmem, before, o, n, after, hp, hstart⟩ := keepFrom_outermost _ huncovered
    (fun _ _ ha hb => h.atSwap_apart htargets ha hb) hsort 0 (fun _ _ _ => .inl (Nat.zero_le _))
    hall k hk
  refine ⟨before, o, n, after, hp, ?_⟩
  rintro d hd rfl
  exact h.eq_header htargets hmem hd hp hstart

end Rewrites

end DocSignature.Patch
