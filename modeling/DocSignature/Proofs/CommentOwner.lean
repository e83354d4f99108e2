import DocSignature.Proofs.RegionOrder
import DocSignature.Proofs.Tidy
import Mathlib.Data.List.Flatten
import Mathlib.Data.List.Sort

/-!
# Comments of one header

A header takes the doc comments that only blanks part from it. It starts with a word outside of all
comments, so the run of comments in front of a later header never reaches past it: no comment stands
in front of two headers.
-/

namespace DocSignature.Conversion

open Source (slice regions)

/-! ## Comments in order -/

theorem region_of_comment {t : Target} {cs : List Char} {c : DocComment}
    (hc : c ∈ commentsOf t cs) : ∃ r ∈ regions cs, r.start = c.start ∧ r.stop = c.stop := by
  obtain ⟨found, hfound, rfl⟩ := List.mem_map.1 hc
  obtain ⟨block, hblock, rfl⟩ := List.mem_map.1 hfound
  obtain ⟨r, hr, rfl⟩ := List.mem_map.1 hblock
  exact ⟨r, List.mem_of_mem_filter hr, rfl, rfl⟩

/-- Comments follow one another. -/
theorem commentsOf_pairwise (t : Target) (cs : List Char) :
    (commentsOf t cs).Pairwise fun a b => a.stop ≤ b.start :=
  DocComment.readAll_pairwise t.file cs

theorem start_lt_stop_of_comment {t : Target} {cs : List Char} {c : DocComment}
    (hc : c ∈ commentsOf t cs) : c.start < c.stop := by
  obtain ⟨r, hr, hstart, hstop⟩ := region_of_comment hc
  have hlt := (Text.hits_bounds Patch.sized_regionAt? hr).1
  omega

theorem commentsOf_starts (t : Target) (cs : List Char) :
    (commentsOf t cs).Pairwise fun a b => a.start < b.start := by
  apply (commentsOf_pairwise t cs).imp_of_mem
  intro a b ha _ hle
  exact (start_lt_stop_of_comment ha).trans_le hle

/-- A list of comments that start one after the other is part of any other that has them all. -/
theorem sublist_of_starts {xs ys : List DocComment}
    (hx : xs.Pairwise fun a b => a.start < b.start) (hy : ys.Pairwise fun a b => a.start < b.start)
    (hsub : xs ⊆ ys) : xs.Sublist ys := by
  have hirrefl : Std.Irrefl fun a b : DocComment => a.start < b.start := ⟨fun _ => Nat.lt_irrefl _⟩
  have hanti : Std.Antisymm fun a b : DocComment => a.start < b.start :=
    ⟨fun _ _ hab hba => absurd hba (Nat.lt_asymm hab)⟩
  exact List.sublist_of_subperm_of_pairwise (List.subperm_of_subset hx.nodup hsub) hx hy

/-! ## Comments in front of an offset -/

theorem stop_le_of_preceding {cs : List Char} {comments : List DocComment} {offset : Nat}
    {c : DocComment} (hc : c ∈ precedingComments cs comments offset) : c.stop ≤ offset := by
  have hmem := (adjacent_sublist _ _ _).subset (List.mem_reverse.1 hc)
  simpa using List.mem_takeWhile_imp (List.mem_reverse.1 hmem)

section Word
variable {cs rest : List Char} {o : Nat} {x : Char}
  (hword : cs.drop o = x :: rest) (hx : Text.isBlank x = false)
include hword hx

/-- A stretch of blanks does not start before a word that it ends behind. -/
theorem lt_of_allBlank_slice {start stop : Nat} (h : Text.allBlank (slice cs start stop) = true)
    (ho : o < stop) : o < start := by
  by_contra hle
  have hget : cs[o]? = some x := by rw [← List.head?_drop, hword, List.head?_cons]
  have hmem : x ∈ slice cs start stop := by
    refine List.mem_iff_getElem?.2 ⟨o - start, ?_⟩
    rw [slice, List.getElem?_take_of_lt (by omega), List.getElem?_drop, ← hget]
    congr 1
    omega
  rw [List.all_eq_true.1 h x hmem] at hx
  cases hx

/-- Comments that only blanks part from a place behind a word all start behind the word, unless one
of them holds it. -/
theorem lt_start_of_adjacent {comments : List DocComment}
    (hout : ∀ c ∈ comments, ¬(c.start ≤ o ∧ o < c.stop)) :
    ∀ cursor, o < cursor → ∀ c ∈ adjacent cs cursor comments, o < c.start := by
  induction comments with
  | nil => intro cursor _ c hc; cases hc
  | cons first comments ih =>
    intro cursor ho c hc
    rw [adjacent] at hc
    split at hc
    · rename_i hblank
      -- The word is not among the blanks behind the first comment, nor in the comment.
      have hstop := lt_of_allBlank_slice hword hx hblank ho
      have hstart := hout first (by simp)
      have hlt : o < first.start := by omega
      rcases List.mem_cons.1 hc with rfl | hc
      · exact hlt
      · exact ih (fun c hc => hout c (by simp [hc])) first.start hlt c hc
    · cases hc

end Word

/-! ## Comments in front of headers -/

section Headers
variable {t : Target} {cs : List Char} {headers : List Header}
  (hfind : Header.find t.language cs = .ok headers)
include hfind

theorem word_of_find {k : Header} (hk : k ∈ headers) :
    ∃ c rest, cs.drop k.start = c :: rest ∧ Text.isBlank c = false := by
  obtain ⟨-, word, hword, more, hmore⟩ := head_of_find hfind hk
  obtain ⟨c, rest, hc, hstart⟩ := (Header.words_headWords t.language).start word hword
  refine ⟨c, rest ++ more, by rw [← hmore, hc, List.cons_append], ?_⟩
  exact Text.isBlank_eq_false_of_isPlainNameChar (Text.isPlainNameChar_of_isNameStart hstart)

theorem outside_of_find {k : Header} (hk : k ∈ headers) {c : DocComment}
    (hc : c ∈ commentsOf t cs) : ¬(c.start ≤ k.start ∧ k.start < c.stop) := by
  rintro ⟨hstart, hstop⟩
  obtain ⟨r, hr, hrstart, hrstop⟩ := region_of_comment hc
  have hcovers := (Patch.covers_iff cs k.start).2 ⟨r, hr, by omega, by omega⟩
  rw [covers_of_find hfind hk] at hcovers
  cases hcovers

/-- The comments in front of a header start behind every earlier header. -/
theorem lt_start_of_preceding {a b : Header} (ha : a ∈ headers) (hab : a.start < b.start)
    {c : DocComment} (hc : c ∈ precedingComments cs (commentsOf t cs) b.start) :
    a.start < c.start := by
  obtain ⟨x, rest, hword, hx⟩ := word_of_find hfind ha
  apply lt_start_of_adjacent hword hx ?_ b.start hab c (List.mem_reverse.1 hc)
  intro c hc
  exact outside_of_find hfind ha ((List.takeWhile_sublist _).subset (List.mem_reverse.1 hc))

/-- The comments in front of an earlier header start before those in front of a later one. -/
theorem start_lt_of_preceding {a b : Header} (ha : a ∈ headers) (hab : a.start < b.start)
    {c d : DocComment} (hc : c ∈ precedingComments cs (commentsOf t cs) a.start)
    (hd : d ∈ precedingComments cs (commentsOf t cs) b.start) : c.start < d.start := by
  have hmem : c ∈ commentsOf t cs := (precedingComments_sublist _ _ _).subset hc
  calc c.start < c.stop := start_lt_stop_of_comment hmem
    _ ≤ a.start := stop_le_of_preceding hc
    _ < d.start := lt_start_of_preceding hfind ha hab hd

theorem starts_of_find : headers.Pairwise fun a b => a.start < b.start := by
  have horder := List.pairwise_map.1 (inOrder_of_find t hfind).apart
  apply horder.imp_of_mem
  intro a b ha _ hle
  exact (within_of_find hfind ha).1.trans_le hle

end Headers

/-- A doc comment stands in front of one header at most. Taken header by header, the comments and
their tags are some of those of the source, in the same order and each once. -/
theorem precedingComments_of_headers_apart (t : Target) (cs : List Char) (headers : List Header)
    (hfind : Header.find t.language cs = .ok headers) :
    let comments := commentsOf t cs
    let before := fun k : Header => precedingComments cs comments k.start
    (headers.Pairwise fun a b => a.start < b.start ∧ (before a).Disjoint (before b)) ∧
    (comments.Pairwise fun a b => a.stop ≤ b.start) ∧
    (headers.flatMap before).Sublist comments ∧
    (headers.flatMap fun k => (before k).flatMap (·.tags)).Sublist
      (comments.flatMap (·.tags)) := by
  intro comments before
  have hsub : ∀ k, (before k).Sublist comments := fun k =>
    precedingComments_sublist cs comments k.start
  have hacross : headers.Pairwise fun a b =>
      a.start < b.start ∧ ∀ c ∈ before a, ∀ d ∈ before b, c.start < d.start := by
    apply (starts_of_find hfind).imp_of_mem
    intro a b ha _ hab
    exact ⟨hab, fun c hc d hd => start_lt_of_preceding hfind ha hab hc hd⟩
  have hall : (headers.flatMap before).Sublist comments := by
    apply sublist_of_starts ?_ (commentsOf_starts t cs)
    · intro c hc
      obtain ⟨k, -, hck⟩ := List.mem_flatMap.1 hc
      exact (hsub k).subset hck
    · rw [List.pairwise_flatMap]
      exact ⟨fun k _ => (commentsOf_starts t cs).sublist (hsub k), hacross.imp fun h => h.2⟩
  refine ⟨?_, commentsOf_pairwise t cs, hall, ?_⟩
  · apply hacross.imp
    rintro a b ⟨hab, hlt⟩
    exact ⟨hab, fun c hc hc' => absurd (hlt c hc c hc') (Nat.lt_irrefl _)⟩
  · rw [← List.flatMap_assoc]
    exact hall.flatMap _

/-- Two stacked comments, a header, a comment behind other code and a comment in front of the
second header. -/
def stackedSource : String :=
  "/** a */ /** b */\nfunction f(x) \x7b\x7d /** c */ g(); /** d */ function h(y) \x7b\x7d"

/-- The headers of `stackedSource`. -/
def stackedHeaders : List Header :=
  [⟨18, 31, "f", [⟨"x", none⟩], false⟩, ⟨58, 71, "h", [⟨"y", none⟩], false⟩]

theorem find_stackedSource : Header.find .python stackedSource.toList = .ok stackedHeaders :=
  Header.find_of_recognised stackedHeaders [] (by decide +kernel)
    (ok_of_toOption (by decide +kernel)) (by decide) (by decide +kernel)

/-- Three of the four comments stand in front of a header, two of them in front of the same one. -/
theorem precedingComments_of_stacked_headers :
    let t : Target := { language := .python }
    let cs := stackedSource.toList
    let before := fun k : Header => precedingComments cs (commentsOf t cs) k.start
    Header.find t.language cs = .ok stackedHeaders ∧
    stackedHeaders.map (fun k => (before k).map (·.start)) = [[0, 9], [49]] ∧
    (stackedHeaders.Pairwise fun a b => (before a).Disjoint (before b)) ∧
    (stackedHeaders.flatMap before).Sublist (commentsOf t cs) := by
  intro t cs before
  obtain ⟨hapart, -, hsublist, -⟩ :=
    precedingComments_of_headers_apart t cs stackedHeaders find_stackedSource
  exact ⟨find_stackedSource, by decide +kernel, hapart.imp fun h => h.2, hsublist⟩

end DocSignature.Conversion
