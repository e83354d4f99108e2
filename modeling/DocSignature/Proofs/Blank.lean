import DocSignature.Text.Blank
import Mathlib.Data.List.DropRight
import Mathlib.Data.List.TakeWhile

/-!
# Trimming

A trimmed text starts and ends with characters that are no blanks, and such a text is left alone.
Words are what stands between blanks.
-/

namespace DocSignature.Text

/-- A text that is not empty and has no blank at either end. -/
structure Trimmed (cs : List Char) : Prop where
  ne_nil : cs ≠ []
  head : ∀ c ∈ cs.head?, isBlank c = false
  last : ∀ c ∈ cs.getLast?, isBlank c = false

theorem trimmed_of_ends {cs : List Char} (hhead : cs.head?.all (!isBlank ·) = true)
    (hlast : cs.getLast?.any (!isBlank ·) = true) : Trimmed cs := by
  refine ⟨?_, ?_, ?_⟩
  · rintro rfl
    cases hlast
  · intro c hc
    simpa [Option.mem_def.1 hc] using hhead
  · intro c hc
    simpa [Option.mem_def.1 hc] using hlast

theorem trimLeft_eq_self {cs : List Char} (h : ∀ c ∈ cs.head?, isBlank c = false) :
    trimLeft cs = cs := by
  cases cs with
  | nil => rfl
  | cons c cs => simp [trimLeft, h c (by simp)]

theorem trimLeft_append {xs : List Char} (hx : ∀ c ∈ xs, isBlank c = true) (cs : List Char) :
    trimLeft (xs ++ cs) = trimLeft cs :=
  List.dropWhile_append_of_pos hx

theorem trimRight_eq_self {cs : List Char} (h : ∀ c ∈ cs.getLast?, isBlank c = false) :
    trimRight cs = cs := by
  have hrev : trimLeft cs.reverse = cs.reverse :=
    trimLeft_eq_self (by simpa [List.head?_reverse] using h)
  rw [trimLeft] at hrev
  rw [trimRight, hrev, List.reverse_reverse]

theorem Trimmed.trim_eq {cs : List Char} (h : Trimmed cs) : trim cs = cs := by
  rw [trim, trimLeft_eq_self h.head, trimRight_eq_self h.last]

theorem Trimmed.trim_blanks_append {xs cs : List Char} (h : Trimmed cs)
    (hx : ∀ c ∈ xs, isBlank c = true) : trim (xs ++ cs) = cs := by
  rw [trim, trimLeft_append hx]
  exact h.trim_eq

theorem Trimmed.trim_append_blanks {cs ys : List Char} (h : Trimmed cs)
    (hy : ∀ c ∈ ys, isBlank c = true) : trim (cs ++ ys) = cs := by
  have hleft : trimLeft (cs ++ ys) = cs ++ ys := by
    apply trimLeft_eq_self
    rw [List.head?_append_of_ne_nil _ h.ne_nil]
    exact h.head
  have hright : trimRight (cs ++ ys) = trimRight cs := by
    rw [trimRight, trimRight, List.reverse_append, List.dropWhile_append_of_pos]
    simpa using hy
  rw [trim, hleft, hright, trimRight_eq_self h.last]

theorem head_trimLeft (cs : List Char) : ∀ c ∈ (trimLeft cs).head?, isBlank c = false := by
  intro c hc
  have h := List.head?_dropWhile_not isBlank cs
  rw [trimLeft] at hc
  rw [hc] at h
  simpa using h

theorem last_trimRight (cs : List Char) : ∀ c ∈ (trimRight cs).getLast?, isBlank c = false := by
  intro c hc
  rw [trimRight, List.getLast?_reverse] at hc
  exact head_trimLeft cs.reverse c hc

/-- Blanks at the start of a text. -/
theorem eq_blanks_append_trimLeft (cs : List Char) :
    ∃ blanks, cs = blanks ++ trimLeft cs ∧ ∀ c ∈ blanks, isBlank c = true :=
  ⟨cs.takeWhile isBlank, List.takeWhile_append_dropWhile.symm,
    fun _ hc => List.mem_takeWhile_imp hc⟩

/-- Blanks at the end of a text. -/
theorem eq_trimRight_append_blanks (cs : List Char) :
    ∃ blanks, cs = trimRight cs ++ blanks ∧ ∀ c ∈ blanks, isBlank c = true := by
  obtain ⟨blanks, hcs, hblanks⟩ := eq_blanks_append_trimLeft cs.reverse
  refine ⟨blanks.reverse, ?_, by simpa using hblanks⟩
  rw [trimRight, ← trimLeft, ← List.reverse_append, ← hcs, List.reverse_reverse]

theorem trimRight_prefix (cs : List Char) : trimRight cs <+: cs := by
  obtain ⟨blanks, hcs, -⟩ := eq_trimRight_append_blanks cs
  exact ⟨blanks, hcs.symm⟩

/-- A text is what trimming leaves of it, with blanks around. -/
theorem eq_blanks_append_trim (cs : List Char) :
    ∃ before after, cs = before ++ (trim cs ++ after) ∧ (∀ c ∈ before, isBlank c = true) ∧
      ∀ c ∈ after, isBlank c = true := by
  obtain ⟨before, hleft, hbefore⟩ := eq_blanks_append_trimLeft cs
  obtain ⟨after, hright, hafter⟩ := eq_trimRight_append_blanks (trimLeft cs)
  exact ⟨before, after, by rw [trim, ← hright, ← hleft], hbefore, hafter⟩

theorem trimRight_append {cs : List Char} (h : ∀ c ∈ cs.getLast?, isBlank c = false)
    (ys : List Char) : trimRight (cs ++ ys) = cs ++ trimRight ys := by
  have hself := trimRight_eq_self h
  unfold trimRight at hself ⊢
  rw [List.reverse_append, List.dropWhile_append]
  split
  · rename_i hempty
    rw [hself, List.isEmpty_iff.1 hempty, List.reverse_nil, List.append_nil]
  · rw [List.reverse_append, List.reverse_reverse]

/-- Trimming leaves nothing, or a trimmed text. -/
theorem trimmed_trim {cs : List Char} (h : trim cs ≠ []) : Trimmed (trim cs) := by
  refine ⟨h, ?_, last_trimRight _⟩
  intro c hc
  obtain ⟨rest, hrest⟩ := trimRight_prefix (trimLeft cs)
  apply head_trimLeft cs
  rw [← hrest]
  change c ∈ (trim cs ++ rest).head?
  rwa [List.head?_append_of_ne_nil _ h]

theorem allBlank_iff_trimLeft (cs : List Char) : allBlank cs = true ↔ trimLeft cs = [] := by
  rw [allBlank, trimLeft, List.dropWhile_eq_nil_iff, List.all_eq_true]

theorem allBlank_of_trim_eq_nil {cs : List Char} (h : trim cs = []) : allBlank cs = true := by
  rw [allBlank_iff_trimLeft]
  by_contra hne
  obtain ⟨c, rest, hcons⟩ := List.exists_cons_of_ne_nil hne
  -- The first character behind the blanks is no blank, so it stays on the right, too.
  have hc : isBlank c = false := head_trimLeft cs c (by simp [hcons])
  rw [trim, hcons, trimRight, List.reverse_eq_nil_iff, List.dropWhile_eq_nil_iff] at h
  have := h c (by simp)
  rw [hc] at this
  cases this

/-! ## Words -/

theorem firstWord?_eq_none_iff (cs : List Char) : firstWord? cs = none ↔ allBlank cs = true := by
  rw [allBlank_iff_trimLeft]
  constructor
  · intro h
    cases ht : trimLeft cs with
    | nil => rfl
    | cons c rest =>
      have hc : isBlank c = false := head_trimLeft cs c (by simp [ht])
      simp [firstWord?, ht, hc] at h
  · intro h
    simp [firstWord?, h]

theorem lastWord?_eq_none_iff (cs : List Char) : lastWord? cs = none ↔ allBlank cs = true := by
  rw [lastWord?, Option.map_eq_none_iff, firstWord?_eq_none_iff]
  simp [allBlank]

theorem firstWord?_append {word : List Char} (hne : word ≠ [])
    (hword : ∀ c ∈ word, isBlank c = false) {cs : List Char}
    (hcs : ∀ c ∈ cs.head?, isBlank c = true) : firstWord? (word ++ cs) = some word := by
  obtain ⟨w, ws, rfl⟩ := List.exists_cons_of_ne_nil hne
  have hleft : trimLeft ((w :: ws) ++ cs) = (w :: ws) ++ cs :=
    trimLeft_eq_self (by simpa using hword w (by simp))
  have htake : ((w :: ws) ++ cs).takeWhile (!isBlank ·) = w :: ws := by
    rw [List.takeWhile_append_of_pos (by simpa using hword)]
    cases cs with
    | nil => simp
    | cons c cs => simp [hcs c (by simp)]
  rw [firstWord?, hleft, htake]

theorem lastWord?_append {word : List Char} (hne : word ≠ [])
    (hword : ∀ c ∈ word, isBlank c = false) {cs : List Char}
    (hcs : ∀ c ∈ cs.getLast?, isBlank c = true) : lastWord? (cs ++ word) = some word := by
  rw [lastWord?, List.reverse_append, firstWord?_append (by simpa using hne) (by simpa using hword)
    (by simpa using hcs)]
  simp

theorem Trimmed.not_allBlank {cs : List Char} (h : Trimmed cs) : allBlank cs = false := by
  obtain ⟨c, rest, rfl⟩ := List.exists_cons_of_ne_nil h.ne_nil
  simp [allBlank, h.head c (by simp)]

end DocSignature.Text
