import DocSignature.Proofs.Frame
import DocSignature.Proofs.Spots
import DocSignature.Proofs.WrittenHead

/-!
# Edits as a patch

The patch of a list of edits: its old text is the source, its new text is what the edits make of it,
and its swaps are the edits.
-/

namespace DocSignature.Patch

open Source Conversion

/-- The patch of some edits of a text, from `cursor` on. -/
def ofEdits (cs : List Char) (cursor : Nat) : List Edit → List Cell
  | [] => (cs.drop cursor).map .kept
  | e :: rest =>
    (slice cs cursor e.start).map .kept ++
      .swap (slice cs e.start e.stop) e.text :: ofEdits cs e.stop rest

/-- Edits of a text from `cursor` on, in order and apart. -/
structure InOrder (cs : List Char) (cursor : Nat) (es : List Edit) : Prop where
  start : ∀ e ∈ es, cursor ≤ e.start
  bounds : ∀ e ∈ es, e.start ≤ e.stop ∧ e.stop ≤ cs.length
  apart : es.Pairwise fun a b => a.stop ≤ b.start

theorem InOrder.tail {cs : List Char} {cursor : Nat} {e : Edit} {es : List Edit}
    (h : InOrder cs cursor (e :: es)) : InOrder cs e.stop es where
  start := (List.pairwise_cons.1 h.apart).1
  bounds e' he' := h.bounds e' (by simp [he'])
  apart := (List.pairwise_cons.1 h.apart).2

theorem length_slice (cs : List Char) {start stop : Nat} (h : stop ≤ cs.length) :
    (slice cs start stop).length = stop - start := by
  rw [slice, List.length_take, List.length_drop]
  omega

theorem text_new_ofEdits (cs : List Char) (es : List Edit) :
    ∀ cursor, text .new (ofEdits cs cursor es) = splice cs cursor es := by
  induction es with
  | nil => intro cursor; exact text_kept .new _
  | cons e es ih => intro cursor; simp [ofEdits, splice, Cell.text, ih]

theorem text_old_ofEdits {cs : List Char} (es : List Edit) :
    ∀ {cursor}, InOrder cs cursor es → text .old (ofEdits cs cursor es) = cs.drop cursor := by
  induction es with
  | nil => intro cursor _; exact text_kept .old _
  | cons e es ih =>
    intro cursor h
    simp only [ofEdits, text_append, text_kept, text_cons, Cell.text, ih h.tail]
    rw [slice_append_drop cs (h.bounds e (by simp)).1, slice_append_drop cs (h.start e (by simp))]

/-- A swap behind a run of kept characters and a first swap is the first one or stands behind it. -/
theorem swap_behind {xs o n o' n' : List Char} {rest before after : List Cell}
    (h : xs.map .kept ++ .swap o n :: rest = before ++ .swap o' n' :: after) :
    (before = xs.map .kept ∧ o' = o ∧ n' = n) ∨
      ∃ mid, before = xs.map .kept ++ .swap o n :: mid ∧ rest = mid ++ .swap o' n' :: after := by
  induction xs generalizing before with
  | nil =>
    cases before with
    | nil =>
      cases h
      exact .inl ⟨rfl, rfl, rfl⟩
    | cons cell before =>
      obtain ⟨rfl, hrest⟩ := List.cons.inj h
      exact .inr ⟨before, rfl, hrest⟩
  | cons x xs ih =>
    cases before with
    | nil => cases h
    | cons cell before =>
      obtain ⟨rfl, hrest⟩ := List.cons.inj h
      rcases ih hrest with ⟨rfl, ho, hn⟩ | ⟨mid, rfl, hmid⟩
      · exact .inl ⟨rfl, ho, hn⟩
      · exact .inr ⟨mid, rfl, hmid⟩

/-- Every swap is one of the edits. -/
theorem edit_of_swap {cs : List Char} {o n : List Char} {after : List Cell} (es : List Edit) :
    ∀ {cursor before}, InOrder cs cursor es → ofEdits cs cursor es = before ++ .swap o n :: after →
      ∃ e ∈ es, o = slice cs e.start e.stop ∧ n = e.text ∧
        cursor + (text .old before).length = e.start := by
  induction es with
  | nil =>
    intro cursor before _ heq
    have hmem : Cell.swap o n ∈ (cs.drop cursor).map Cell.kept := by
      rw [ofEdits] at heq
      rw [heq]
      simp
    obtain ⟨c, -, hc⟩ := List.mem_map.1 hmem
    cases hc
  | cons e es ih =>
    intro cursor before h heq
    obtain ⟨hstart, hbounds⟩ := And.intro (h.start e (by simp)) (h.bounds e (by simp))
    have hgap : (slice cs cursor e.start).length = e.start - cursor :=
      length_slice cs (by omega)
    rw [ofEdits] at heq
    rcases swap_behind heq with ⟨rfl, rfl, rfl⟩ | ⟨mid, rfl, hmid⟩
    · refine ⟨e, by simp, rfl, rfl, ?_⟩
      rw [text_kept, hgap]
      omega
    · obtain ⟨e', he', ho, hn, hplace⟩ := ih h.tail hmid
      refine ⟨e', by simp [he'], ho, hn, ?_⟩
      have hold : (slice cs e.start e.stop).length = e.stop - e.start :=
        length_slice cs hbounds.2
      simp only [text_append, text_kept, text_cons, Cell.text, List.length_append, hgap, hold]
      omega

/-- Every edit is a swap. -/
theorem swap_of_edit {cs : List Char} {e : Edit} (es : List Edit) :
    ∀ {cursor}, InOrder cs cursor es → e ∈ es → ∃ before after,
      ofEdits cs cursor es = before ++ .swap (slice cs e.start e.stop) e.text :: after ∧
        cursor + (text .old before).length = e.start := by
  induction es with
  | nil => intro cursor _ he; cases he
  | cons first es ih =>
    intro cursor h he
    obtain ⟨hstart, hbounds⟩ := And.intro (h.start first (by simp)) (h.bounds first (by simp))
    have hgap : (slice cs cursor first.start).length = first.start - cursor :=
      length_slice cs (by omega)
    rcases List.mem_cons.1 he with rfl | he
    · exact ⟨_, _, rfl, by rw [text_kept, hgap]; omega⟩
    · obtain ⟨before, after, heq, hplace⟩ := ih h.tail he
      refine ⟨(slice cs cursor first.start).map .kept ++
        .swap (slice cs first.start first.stop) first.text :: before, after, ?_, ?_⟩
      · rw [ofEdits, heq, List.append_assoc, List.cons_append]
      · have hold : (slice cs first.start first.stop).length = first.stop - first.start :=
          length_slice cs hbounds.2
        simp only [text_append, text_kept, text_cons, Cell.text, List.length_append, hgap, hold]
        omega

/-- Where a brace is ahead in the old text, it stays, with the blanks in front of it. -/
theorem brace_of_braceAhead {cells : List Cell}
    (hstart : ∀ o n, .swap o n ∈ cells → ∃ c rest, o = c :: rest ∧ Text.isNameStart c = true)
    (h : Header.BraceAhead (text .old cells)) :
    ∃ (blanks : List Char) (more : List Cell),
      cells = blanks.map .kept ++ .kept '{' :: more ∧ ∀ c ∈ blanks, Text.isBlank c = true := by
  induction cells with
  | nil => cases h
  | cons cell cells ih =>
    have ih := ih fun o n hmem => hstart o n (by simp [hmem])
    rw [Header.BraceAhead] at h ih
    cases cell with
    | kept c =>
      cases hc : Text.isBlank c with
      | true =>
        obtain ⟨blanks, more, rfl, hblanks⟩ := ih (by
          simpa [Cell.text, Text.trimLeft, hc] using h)
        exact ⟨c :: blanks, more, rfl, List.forall_mem_cons.2 ⟨hc, hblanks⟩⟩
      | false =>
        obtain rfl : c = '{' := by simpa [Cell.text, Text.trimLeft, hc] using h
        exact ⟨[], cells, rfl, by simp⟩
    | swap o n =>
      obtain ⟨c, rest, rfl, hc⟩ := hstart o n (by simp)
      have hblank := Text.isBlank_eq_false_of_isPlainNameChar
        (Text.isPlainNameChar_of_isNameStart hc)
      obtain rfl : c = '{' := by simpa [Cell.text, Text.trimLeft, hblank] using h
      exact absurd hc (by decide)

end DocSignature.Patch
