import DocSignature.Proofs.Frame
import DocSignature.Proofs.Locate
import DocSignature.Proofs.Spots

/-!
# Doc comments of a patch

A patch keeps the doc comments with their texts. It keeps their places when each starts on a later
line than the swap before it, and it keeps which of them stand in front of a swap.
-/

namespace DocSignature.Patch

open Source Conversion

/-- Which of two places is the earlier one does not depend on the side. -/
theorem Sound.length_le_iff {p a b x y : List Cell} (h : Sound p) (ha : p = a ++ x)
    (hb : p = b ++ y) (side : Side) :
    (text side a).length ≤ (text side b).length ↔
      (text .old a).length ≤ (text .old b).length := by
  constructor <;> intro hle <;> obtain ⟨mid, rfl⟩ := h.prefix_of_length ha hb hle <;> simp

theorem slice_text (side : Side) (a mid rest : List Cell) :
    slice (text side (a ++ (mid ++ rest))) (text side a).length (text side (a ++ mid)).length =
      text side mid := by
  rw [text_append, text_append, text_append, slice, List.drop_left, List.length_append,
    Nat.add_sub_cancel_left, List.take_left]

/-- Cells are blank on both sides or on none. -/
theorem Sound.allBlank_text {p : List Cell} (h : Sound p) (side : Side) {cells : List Cell}
    (hsub : ∀ cell ∈ cells, cell ∈ p) :
    Text.allBlank (text side cells) = Text.allBlank (text .old cells) := by
  have hstart {cs : List Char} (hq : Quiet cs) (more : List Char) :
      Text.allBlank (cs ++ more) = false := by
    obtain ⟨⟨c, rest, rfl, hc⟩, -⟩ := hq
    have hblank := Text.isBlank_eq_false_of_isPlainNameChar (Text.isPlainNameChar_of_isNameStart hc)
    simp [Text.allBlank, hblank]
  induction cells with
  | nil => rfl
  | cons cell cells ih =>
    have ih := ih fun cell hc => hsub cell (by simp [hc])
    cases cell with
    | kept c => simpa [Cell.text, Text.allBlank] using congrArg (Text.isBlank c && ·) ih
    | swap o n =>
      obtain ⟨ho, hn⟩ := h.quiet o n (hsub _ (by simp))
      cases side with
      | old => rfl
      | new => rw [text_cons, text_cons, Cell.text, Cell.text, hstart ho, hstart hn]

/-! ## Comments in front of a place -/

/-- A spot as a doc comment. -/
def comment (loc : Spot → Loc) (tags : Spot → List Tag) (side : Side) (s : Spot) : DocComment :=
  ⟨loc s, (s.region side).start, (s.region side).stop, tags s⟩

section Comments
variable {p : List Cell} (h : Sound p) (loc : Spot → Loc) (tags : Spot → List Tag)
include h

/-- Whether only blanks stand between a spot and a place behind it does not depend on the side. -/
theorem Sound.exists_allBlank {s : Spot} (hs : s.In p) {b rest : List Cell} (hp : p = b ++ rest) :
    ∃ blank : Bool, ∀ side, Text.allBlank
      (slice (text side p) (s.region side).stop (text side b).length) = blank := by
  obtain ⟨after, hafter⟩ := hs
  have hstop (side : Side) : (s.region side).stop =
      (text side (s.before ++ s.inside.map .kept)).length := by
    simp [Spot.region]
  by_cases hle : (text .old (s.before ++ s.inside.map .kept)).length ≤ (text .old b).length
  · obtain ⟨mid, rfl⟩ := h.prefix_of_length hafter hp hle
    refine ⟨Text.allBlank (text .old mid), fun side => ?_⟩
    rw [List.append_assoc] at hp
    rw [hstop]
    conv_lhs => rw [hp, slice_text]
    exact h.allBlank_text side fun cell hc => by rw [hp]; simp [hc]
  · refine ⟨true, fun side => ?_⟩
    rw [← h.length_le_iff hafter hp side] at hle
    rw [hstop, slice, Nat.sub_eq_zero_of_le (by omega)]
    rfl

theorem Sound.exists_adjacent (docs : List Spot) (hdocs : ∀ s ∈ docs, s.In p) :
    ∀ b rest, p = b ++ rest → ∃ near : List Spot, ∀ side,
      adjacent (text side p) (text side b).length (docs.map (comment loc tags side)) =
        near.map (comment loc tags side) := by
  induction docs with
  | nil => intro b rest _; exact ⟨[], fun side => rfl⟩
  | cons s docs ih =>
    intro b rest hp
    obtain ⟨blank, hblank⟩ := h.exists_allBlank (hdocs s (by simp)) hp
    cases blank with
    | false =>
      refine ⟨[], fun side => ?_⟩
      rw [List.map_cons, adjacent, comment, hblank]
      rfl
    | true =>
      obtain ⟨after, hafter⟩ := hdocs s (by simp)
      rw [List.append_assoc] at hafter
      obtain ⟨near, heq⟩ := ih (fun s hs => hdocs s (by simp [hs])) s.before _ hafter
      refine ⟨s :: near, fun side => ?_⟩
      rw [List.map_cons, adjacent, comment, hblank, if_pos rfl, List.map_cons, ← heq]
      rfl

theorem Sound.exists_takeWhile (docs : List Spot) (hdocs : ∀ s ∈ docs, s.In p)
    {b rest : List Cell} (hp : p = b ++ rest) :
    ∃ front : List Spot, (∀ s ∈ front, s ∈ docs) ∧ ∀ side,
      (docs.map (comment loc tags side)).takeWhile (·.stop ≤ (text side b).length) =
        front.map (comment loc tags side) := by
  induction docs with
  | nil => exact ⟨[], by simp, fun side => rfl⟩
  | cons s docs ih =>
    obtain ⟨after, hafter⟩ := hdocs s (by simp)
    have hstop (side : Side) : (comment loc tags side s).stop =
        (text side (s.before ++ s.inside.map .kept)).length := by
      simp [comment, Spot.region]
    by_cases hle : (text .old (s.before ++ s.inside.map .kept)).length ≤ (text .old b).length
    · obtain ⟨front, hfront, heq⟩ := ih fun s hs => hdocs s (by simp [hs])
      refine ⟨s :: front, ?_, fun side => ?_⟩
      · exact List.forall_mem_cons.2 ⟨by simp, fun s' hs' => by simp [hfront s' hs']⟩
      · rw [List.map_cons, List.takeWhile_cons_of_pos, heq, List.map_cons]
        rw [hstop, decide_eq_true_eq, h.length_le_iff hafter hp]
        exact hle
    · refine ⟨[], by simp, fun side => ?_⟩
      rw [List.map_cons, List.takeWhile_cons_of_neg, List.map_nil]
      rw [hstop, decide_eq_true_eq, h.length_le_iff hafter hp]
      exact hle

/-- The same comments stand in front of a place on both sides. -/
theorem Sound.exists_preceding {docs : List Spot} (hdocs : ∀ s ∈ docs, s.In p)
    {b rest : List Cell} (hp : p = b ++ rest) :
    ∃ near : List Spot, ∀ side,
      precedingComments (text side p) (docs.map (comment loc tags side)) (text side b).length =
        near.map (comment loc tags side) := by
  obtain ⟨front, hfront, htake⟩ := h.exists_takeWhile loc tags docs hdocs hp
  obtain ⟨near, heq⟩ := h.exists_adjacent loc tags front.reverse
    (fun s hs => hdocs s (hfront s (List.mem_reverse.1 hs))) b rest hp
  refine ⟨near.reverse, fun side => ?_⟩
  rw [precedingComments, htake, ← List.map_reverse, heq, List.map_reverse]

end Comments

/-! ## Places of comments -/

/-- A list of cells ends with cells that stay, up to its last swap. -/
theorem last_swap (cells : List Cell) :
    (∃ xs : List Char, cells = xs.map .kept) ∨
      ∃ (front : List Cell) (o n : List Char) (xs : List Char),
        cells = front ++ .swap o n :: xs.map .kept := by
  induction cells with
  | nil => exact .inl ⟨[], rfl⟩
  | cons cell cells ih =>
    rcases ih with ⟨xs, rfl⟩ | ⟨front, o, n, xs, rfl⟩
    · cases cell with
      | kept c => exact .inl ⟨c :: xs, rfl⟩
      | swap o n => exact .inr ⟨[], o, n, xs, rfl⟩
    · exact .inr ⟨cell :: front, o, n, xs, rfl⟩

/-- Swaps have no line feeds, so both sides have the same lines. -/
theorem Sound.count_newline {p : List Cell} (h : Sound p) {cells : List Cell}
    (hsub : ∀ cell ∈ cells, cell ∈ p) :
    (text .old cells).count '\n' = (text .new cells).count '\n' := by
  have hquiet {cs : List Char} (hq : Quiet cs) : cs.count '\n' = 0 := by
    rw [List.count_eq_zero]
    intro hmem
    exact absurd (hq.quiet _ hmem) (by decide)
  induction cells with
  | nil => rfl
  | cons cell cells ih =>
    have ih := ih fun cell hc => hsub cell (by simp [hc])
    cases cell with
    | kept c => simp [Cell.text, List.count_cons, ih]
    | swap o n =>
      obtain ⟨ho, hn⟩ := h.quiet o n (hsub _ (by simp))
      simp [Cell.text, List.count_append, ih, hquiet ho, hquiet hn]

/-- A line feed stands between a place and the last swap before it. -/
def OnOwnLine (before : List Cell) : Prop :=
  ∀ (front : List Cell) (o n : List Char) (xs : List Char),
    before = front ++ .swap o n :: xs.map .kept → '\n' ∈ xs

/-- A place on a line of its own is the same on both sides. -/
theorem Sound.locate_text {p before after : List Cell} (h : Sound p) (hp : p = before ++ after)
    (hline : OnOwnLine before) :
    locate (text .new p) (text .new before).length =
      locate (text .old p) (text .old before).length := by
  conv_lhs => rw [hp, text_append, locate_append]
  conv_rhs => rw [hp, text_append, locate_append]
  rcases last_swap before with ⟨xs, rfl⟩ | ⟨front, o, n, xs, rfl⟩
  · simp
  · have hmem := hline front o n xs rfl
    have hsub : ∀ cell ∈ front ++ [.swap o n], cell ∈ p := by
      intro cell hc
      rw [hp]
      simp only [List.mem_append, List.mem_singleton] at hc
      simp only [List.mem_append, List.mem_cons]
      tauto
    have hcount := h.count_newline hsub
    have hsplit (side : Side) : text side (front ++ .swap o n :: xs.map .kept) =
        text side (front ++ [.swap o n]) ++ xs := by simp
    rw [hsplit, hsplit, List.foldl_append, List.foldl_append]
    apply foldl_next_eq hmem
    rw [foldl_next_line, foldl_next_line, hcount]

/-! ## All doc comments -/

/-- The spots that are doc comments. -/
def docSpots (spots : List Spot) : List Spot :=
  spots.filter (·.kind = .docComment)

/-- The place of a spot in the old text. -/
def oldLoc (p : List Cell) (s : Spot) : Loc :=
  locate (text .old p) (text .old s.before).length

/-- What is read from a doc comment. -/
def readSpot (file : Option String) (p : List Cell) (s : Spot) : List Tag × List Diagnostic :=
  Tag.readAll file (oldLoc p s) s.inside

section Marked
variable {p : List Cell} (h : Sound p) {spots : List Spot} (hm : Marked p spots)
  (hline : ∀ s ∈ docSpots spots, OnOwnLine s.before)
include h hm hline

theorem Sound.docBlocks_text (side : Side) :
    docBlocks (text side p) = (docSpots spots).map fun s =>
      ⟨oldLoc p s, (s.region side).start, (s.region side).stop, s.inside⟩ := by
  have hkind : ((spots.map (Spot.region side)).filter (·.value = .docComment)) =
      (docSpots spots).map (Spot.region side) := List.filter_map
  rw [docBlocks, hm.regions, hkind, List.map_map]
  refine List.map_congr_left fun s hs => ?_
  obtain ⟨after, hp⟩ := hm.spot s (List.mem_of_mem_filter hs)
  rw [List.append_assoc] at hp
  have hloc : locate (text side p) (text side s.before).length = oldLoc p s := by
    cases side with
    | old => rfl
    | new => exact h.locate_text hp (hline s hs)
  have hslice : slice (text side p) (s.region side).start (s.region side).stop = s.inside := by
    have := slice_text side s.before (s.inside.map .kept) after
    rw [← hp, text_append, List.length_append, text_kept] at this
    exact this
  simp only [Function.comp_apply, hslice]
  exact congrArg (fun loc => DocBlock.mk loc _ _ _) hloc

/-- Both sides have the same doc comments. -/
theorem Sound.readAll_text (file : Option String) (side : Side) :
    DocComment.readAll file (text side p) =
      ((docSpots spots).map (comment (oldLoc p) (fun s => (readSpot file p s).1) side),
        (docSpots spots).flatMap fun s => (readSpot file p s).2) := by
  rw [DocComment.readAll, h.docBlocks_text hm hline, List.map_map, List.map_map]
  simp only [List.flatMap_map]
  rfl

end Marked

end DocSignature.Patch
