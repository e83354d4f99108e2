import DocSignature.Proofs.CommentOwner
import Mathlib.Data.List.Chain

/-!
# The run of comments in front of an offset

Of the comments that stop no later than an offset, those directly in front of it are the last ones,
as many as only blanks part from each other and from the offset. They are found from the last one
back, with the start of each as the place in front of which the next one must stand. What is found
is all of them: the comment that is left out first has other text behind it.
-/

namespace DocSignature.Conversion

open Source (slice)

/-! ## Blanks between two offsets -/

/-- Only blanks stand between two offsets. -/
def BlankBetween (cs : List Char) (start stop : Nat) : Prop :=
  ∀ i c, start ≤ i → i < stop → cs[i]? = some c → Text.isBlank c = true

theorem allBlank_slice_iff (cs : List Char) (start stop : Nat) :
    Text.allBlank (slice cs start stop) = true ↔ BlankBetween cs start stop := by
  rw [Text.allBlank, List.all_eq_true]
  constructor
  · intro h i c hstart hstop hget
    apply h c
    refine List.mem_iff_getElem?.2 ⟨i - start, ?_⟩
    rw [slice, List.getElem?_take_of_lt (by omega), List.getElem?_drop, ← hget]
    congr 1
    omega
  · intro h c hc
    obtain ⟨k, hk⟩ := List.mem_iff_getElem?.1 hc
    rw [slice, List.getElem?_take] at hk
    split at hk
    · rw [List.getElem?_drop] at hk
      exact h (start + k) c (by omega) (by omega) hk
    · cases hk

/-! ## Going back from comment to comment -/

/-- Where some comments in front of an offset start, the latest given first: at the offset when
there are none. -/
def firstStart (cursor : Nat) (near : List DocComment) : Nat :=
  (near.getLast?.map (·.start)).getD cursor

theorem firstStart_cons (cursor : Nat) (c : DocComment) (near : List DocComment) :
    firstStart cursor (c :: near) = firstStart c.start near := by
  unfold firstStart
  rw [List.getLast?_cons]
  cases near.getLast? <;> rfl

/-- Comments, the latest given first, that only blanks part from each other and from `cursor`. -/
structure Linked (cs : List Char) (cursor : Nat) (near : List DocComment) : Prop where
  chain : near.IsChain fun d c => BlankBetween cs c.stop d.start
  first : ∀ c ∈ near.head?, BlankBetween cs c.stop cursor

theorem linked_cons_iff {cs : List Char} {cursor : Nat} {c : DocComment} {near : List DocComment} :
    Linked cs cursor (c :: near) ↔ BlankBetween cs c.stop cursor ∧ Linked cs c.start near := by
  constructor
  · rintro ⟨hchain, hfirst⟩
    obtain ⟨hnext, hchain⟩ := List.isChain_cons.1 hchain
    exact ⟨hfirst c rfl, hchain, hnext⟩
  · rintro ⟨hblank, hchain, hnext⟩
    refine ⟨List.isChain_cons.2 ⟨hnext, hchain⟩, ?_⟩
    rintro d hd
    cases hd
    exact hblank

/-- The comments that are found are linked, and the first of the others is not. -/
theorem exists_rest_of_adjacent (cs : List Char) (comments : List DocComment) :
    ∀ cursor, ∃ rest, comments = adjacent cs cursor comments ++ rest ∧
      Linked cs cursor (adjacent cs cursor comments) ∧
      ∀ c ∈ rest.head?,
        ¬BlankBetween cs c.stop (firstStart cursor (adjacent cs cursor comments)) := by
  induction comments with
  | nil => intro cursor; exact ⟨[], rfl, ⟨List.isChain_nil, by simp [adjacent]⟩, by simp⟩
  | cons c comments ih =>
    intro cursor
    rw [adjacent]
    split
    · rename_i hblank
      obtain ⟨rest, hsplit, hlinked, hrest⟩ := ih c.start
      refine ⟨rest, by rw [List.cons_append, ← hsplit], ?_, ?_⟩
      · exact linked_cons_iff.2 ⟨(allBlank_slice_iff cs _ _).1 hblank, hlinked⟩
      · rwa [firstStart_cons]
    · rename_i hblank
      refine ⟨c :: comments, rfl, ⟨List.isChain_nil, by simp⟩, ?_⟩
      rintro d hd
      cases hd
      rwa [allBlank_slice_iff] at hblank

/-- Linked comments are found if the first of the others is not linked to them. -/
theorem adjacent_append {cs : List Char} {near rest : List DocComment} :
    ∀ {cursor}, Linked cs cursor near →
      (∀ c ∈ rest.head?, ¬BlankBetween cs c.stop (firstStart cursor near)) →
      adjacent cs cursor (near ++ rest) = near := by
  induction near with
  | nil =>
    intro cursor _ hrest
    cases rest with
    | nil => rfl
    | cons c rest =>
      have hblank := hrest c rfl
      rw [List.nil_append, adjacent, if_neg (by rwa [allBlank_slice_iff])]
  | cons c near ih =>
    intro cursor hlinked hrest
    obtain ⟨hblank, hnear⟩ := linked_cons_iff.1 hlinked
    rw [firstStart_cons] at hrest
    rw [List.cons_append, adjacent, if_pos ((allBlank_slice_iff cs _ _).2 hblank), ih hnear hrest]

/-! ## The run in front of an offset -/

/-- A run of the comments of a source in front of an offset: the last comments that stop no later
than the offset, parted by blanks only from each other and from the offset. It goes back as far as
possible: the comment in front of it, if there is one, has other text between itself and the run, or
the offset when the run is empty. -/
structure IsRun (cs : List Char) (comments : List DocComment) (offset : Nat)
    (run : List DocComment) : Prop where
  block : ∃ before after, comments = before ++ run ++ after ∧
    (∀ c ∈ before ++ run, c.stop ≤ offset) ∧ (∀ c ∈ after, offset < c.stop) ∧
    ∀ c ∈ before.getLast?, ¬BlankBetween cs c.stop ((run.head?.map (·.start)).getD offset)
  order : run.Pairwise fun c d => c.stop ≤ d.start
  chain : run.IsChain fun c d => BlankBetween cs c.stop d.start
  last : ∀ c ∈ run.getLast?, BlankBetween cs c.stop offset

theorem linked_reverse_iff {cs : List Char} {offset : Nat} {run : List DocComment} :
    Linked cs offset run.reverse ↔
      (run.IsChain fun c d => BlankBetween cs c.stop d.start) ∧
        ∀ c ∈ run.getLast?, BlankBetween cs c.stop offset := by
  constructor
  · rintro ⟨hchain, hfirst⟩
    rw [List.head?_reverse] at hfirst
    exact ⟨List.isChain_reverse.1 hchain, hfirst⟩
  · rintro ⟨hchain, hlast⟩
    refine ⟨List.isChain_reverse.2 hchain, ?_⟩
    rwa [List.head?_reverse]

theorem firstStart_reverse (offset : Nat) (run : List DocComment) :
    firstStart offset run.reverse = (run.head?.map (·.start)).getD offset := by
  rw [firstStart, List.getLast?_reverse]

/-- Comments that follow one another stop one after the other, so behind the first that stops later
than an offset all do. -/
theorem lt_stop_of_mem_dropWhile {t : Target} {cs : List Char} {offset : Nat} {c : DocComment}
    (h : c ∈ (commentsOf t cs).dropWhile (·.stop ≤ offset)) : offset < c.stop := by
  have hstops : (commentsOf t cs).Pairwise fun a b => a.stop ≤ b.stop := by
    refine (commentsOf_pairwise t cs).imp_of_mem fun _ hb hle => ?_
    exact hle.trans (start_lt_stop_of_comment hb).le
  have hdropped := hstops.sublist (List.dropWhile_sublist (fun c => decide (c.stop ≤ offset)))
  cases hdrop : (commentsOf t cs).dropWhile (·.stop ≤ offset) with
  | nil =>
    rw [hdrop] at h
    cases h
  | cons first rest =>
    have hfirst : offset < first.stop := by
      have hhead := List.head?_dropWhile_not (fun c => decide (c.stop ≤ offset)) (commentsOf t cs)
      rw [hdrop] at hhead
      simpa using hhead
    rw [hdrop] at h hdropped
    rcases List.mem_cons.1 h with rfl | h
    · exact hfirst
    · exact hfirst.trans_le ((List.pairwise_cons.1 hdropped).1 c h)

theorem isRun_precedingComments (t : Target) (cs : List Char) (offset : Nat) :
    IsRun cs (commentsOf t cs) offset (precedingComments cs (commentsOf t cs) offset) := by
  obtain ⟨rest, hsplit, hlinked, hrest⟩ := exists_rest_of_adjacent cs
    ((commentsOf t cs).takeWhile (·.stop ≤ offset)).reverse offset
  rw [← List.reverse_reverse (adjacent _ _ _), ← precedingComments] at hsplit hlinked hrest
  rw [List.reverse_eq_iff, List.reverse_append, List.reverse_reverse] at hsplit
  rw [firstStart_reverse, ← List.getLast?_reverse] at hrest
  obtain ⟨hchain, hlast⟩ := linked_reverse_iff.1 hlinked
  refine ⟨⟨rest.reverse, (commentsOf t cs).dropWhile (·.stop ≤ offset), ?_, ?_, ?_, hrest⟩,
    (commentsOf_pairwise t cs).sublist (precedingComments_sublist _ _ _), hchain, hlast⟩
  · rw [← hsplit, List.takeWhile_append_dropWhile]
  · rw [← hsplit]
    intro c hc
    simpa using List.mem_takeWhile_imp hc
  · exact fun c hc => lt_stop_of_mem_dropWhile hc

theorem IsRun.eq_precedingComments {cs : List Char} {comments run : List DocComment} {offset : Nat}
    (h : IsRun cs comments offset run) : run = precedingComments cs comments offset := by
  obtain ⟨⟨before, after, rfl, hbefore, hafter, hleft⟩, -, hchain, hlast⟩ := h
  have htake : (before ++ run ++ after).takeWhile (·.stop ≤ offset) = before ++ run := by
    rw [List.takeWhile_append_of_pos (by simpa using hbefore)]
    cases after with
    | nil => rw [List.takeWhile_nil, List.append_nil]
    | cons c after =>
      have hc := hafter c (by simp)
      rw [List.takeWhile_cons_of_neg (by simpa using hc), List.append_nil]
  rw [← firstStart_reverse, ← List.head?_reverse] at hleft
  rw [precedingComments, htake, List.reverse_append,
    adjacent_append (linked_reverse_iff.2 ⟨hchain, hlast⟩) hleft, List.reverse_reverse]

/-- The comments directly in front of an offset are the run there, and there is no other. -/
theorem isRun_iff_eq_precedingComments (t : Target) (cs : List Char) (offset : Nat)
    (run : List DocComment) :
    IsRun cs (commentsOf t cs) offset run ↔
      run = precedingComments cs (commentsOf t cs) offset := by
  constructor
  · exact IsRun.eq_precedingComments
  · rintro rfl
    exact isRun_precedingComments t cs offset

/-- Four comments: one with a word behind it, two with a line feed between them, and one back to
back with the third. -/
def commentsInARow : List Char := "/** a */x/** b */\n/** c *//** d */".toList

/-- Behind the third comment, inside of the fourth and behind it. -/
theorem isRun_commentsInARow :
    let comments := commentsOf { language := .python } commentsInARow
    ([26, 30, 34].map fun offset =>
      (precedingComments commentsInARow comments offset).map (·.start)) =
        [[9, 18], [], [9, 18, 26]] ∧
    ∃ run, IsRun commentsInARow comments 34 run ∧ run.map (·.start) = [9, 18, 26] := by
  intro comments
  refine ⟨by decide +kernel, precedingComments commentsInARow comments 34, ?_, by decide +kernel⟩
  exact (isRun_iff_eq_precedingComments { language := .python } commentsInARow 34 _).2 rfl

end DocSignature.Conversion
