import DocSignature.Proofs.Lexeme
import DocSignature.Proofs.Locate

/-!
# What stands at a place

A text stands at a place of a source when the source, from the offset of that place on, starts with
it. Behind a front part of the text the rest stands where one gets through the front part, so the
lines of a text stand one below the other, and the place of a token in a fragment is carried over to
the source in which the fragment stands.
-/

namespace DocSignature.Loc

theorem forward_eq_self_iff (loc : Loc) (n : Nat) : loc.forward n = loc ↔ n = 0 := by
  obtain ⟨line, column⟩ := loc
  simp [forward]

/-! ## Going through a text -/

theorem foldl_next_of_plain {xs : List Char} (h : '\n' ∉ xs) (loc : Loc) :
    xs.foldl next loc = loc.forward xs.length := by
  induction xs generalizing loc with
  | nil => rfl
  | cons x xs ih =>
    obtain ⟨hx, hxs⟩ := List.ne_and_not_mem_of_not_mem_cons h
    rw [List.foldl_cons, ih hxs, next, if_neg (Ne.symm hx), List.length_cons]
    simp only [forward, Loc.mk.injEq, true_and]
    omega

/-- Through a line and the line feed behind it one gets to the start of the next line. -/
theorem foldl_next_of_line {xs : List Char} (h : '\n' ∉ xs) (loc : Loc) :
    (xs ++ ['\n']).foldl next loc = ⟨loc.line + 1, 1⟩ := by
  rw [List.foldl_append, foldl_next_of_plain h]
  rfl

theorem one_le_foldl_next (xs : List Char) (loc : Loc) (h : 1 ≤ loc.line ∧ 1 ≤ loc.column) :
    1 ≤ (xs.foldl next loc).line ∧ 1 ≤ (xs.foldl next loc).column := by
  induction xs generalizing loc with
  | nil => exact h
  | cons x xs ih =>
    apply ih
    unfold next
    split
    · exact ⟨Nat.le_add_left _ _, le_rfl⟩
    · exact ⟨h.1, Nat.le_add_left _ _⟩

theorem within_next (base : Loc) {loc : Loc} (h : 1 ≤ loc.line ∧ 1 ≤ loc.column) (c : Char) :
    base.within (loc.next c) = (base.within loc).next c := by
  obtain ⟨line, column⟩ := loc
  obtain ⟨hl, hcol⟩ : 1 ≤ line ∧ 1 ≤ column := h
  by_cases hc : c = '\n'
  · have hlater : ¬line + 1 ≤ 1 := by omega
    by_cases hline : line ≤ 1
    · simp only [within, next, hc, hline, if_true, hlater, if_false, Loc.mk.injEq, and_true]
      omega
    · simp only [within, next, hc, hline, if_true, hlater, if_false, Loc.mk.injEq, and_true]
      omega
  · by_cases hline : line ≤ 1
    · simp [within, next, hc, hline]
      omega
    · simp [within, next, hc, hline]

/-- A place in a fragment is a place in the text around it: where one gets through the same
characters. -/
theorem within_foldl_next (base : Loc) (xs : List Char) :
    base.within (xs.foldl next first) = xs.foldl next base := by
  induction xs using List.reverseRecOn with
  | nil => simp [within, first]
  | append_singleton xs c ih =>
    rw [List.foldl_append, List.foldl_append, ← ih]
    exact within_next base (one_le_foldl_next xs first (by decide)) c

/-- The place that lies to `base` as `loc` lies to `old`. -/
def rebase (old base loc : Loc) : Loc :=
  if loc.line = old.line then ⟨base.line, base.column + loc.column - old.column⟩
  else ⟨base.line + loc.line - old.line, loc.column⟩

theorem rebase_foldl_next (old base : Loc) (xs : List Char) :
    rebase old base (xs.foldl next old) = xs.foldl next base := by
  rw [← within_foldl_next old, ← within_foldl_next base]
  have h := one_le_foldl_next xs first (by decide)
  generalize xs.foldl next first = loc at h
  obtain ⟨line, column⟩ := loc
  obtain ⟨hl, hcol⟩ : 1 ≤ line ∧ 1 ≤ column := h
  by_cases hline : line ≤ 1
  · simp only [within, hline, if_true, rebase, Loc.mk.injEq, true_and]
    omega
  · have hne : old.line + line - 1 ≠ old.line := by omega
    simp only [within, hline, if_false, rebase, hne, Loc.mk.injEq, and_true]
    omega

end DocSignature.Loc

namespace DocSignature.Text

theorem unlines_cons_cons (first second : List Char) (ls : List (List Char)) :
    unlines (first :: second :: ls) = first ++ '\n' :: unlines (second :: ls) := by
  simp [unlines, List.intercalate_cons_cons]

end DocSignature.Text

namespace DocSignature.Source

/-- The source has `word` at a place. -/
def StandsAt (cs : List Char) (loc : Loc) (word : List Char) : Prop :=
  ∃ offset, offset ≤ cs.length ∧ locate cs offset = loc ∧ word <+: cs.drop offset

instance (cs : List Char) (loc : Loc) (word : List Char) : Decidable (StandsAt cs loc word) :=
  inferInstanceAs (Decidable (∃ offset, offset ≤ cs.length ∧ _))

theorem standsAt_iff {cs : List Char} {loc : Loc} {word : List Char} :
    StandsAt cs loc word ↔
      ∃ front rest, cs = front ++ (word ++ rest) ∧ front.foldl Loc.next .first = loc := by
  constructor
  · rintro ⟨offset, hle, rfl, rest, hrest⟩
    have hcs : cs = cs.take offset ++ (word ++ rest) := by
      rw [hrest, List.take_append_drop]
    refine ⟨cs.take offset, rest, hcs, ?_⟩
    have hloc := locate_append (cs.take offset) (word ++ rest)
    rw [← hcs, List.length_take, min_eq_left hle] at hloc
    exact hloc.symm
  · rintro ⟨front, rest, rfl, rfl⟩
    refine ⟨front.length, by simp, locate_append _ _, ?_⟩
    rw [List.drop_left]
    exact List.prefix_append word rest

section StandsAt
variable {cs : List Char} {loc : Loc}

theorem StandsAt.mono {word word' : List Char} (h : StandsAt cs loc word) (hle : word' <+: word) :
    StandsAt cs loc word' := by
  obtain ⟨offset, hoffset, hloc, hword⟩ := h
  exact ⟨offset, hoffset, hloc, hle.trans hword⟩

/-- Behind a front part stands the rest, where one gets through the front part. -/
theorem StandsAt.behind {xs ys : List Char} (h : StandsAt cs loc (xs ++ ys)) :
    StandsAt cs (xs.foldl Loc.next loc) ys := by
  obtain ⟨front, rest, hcs, hloc⟩ := standsAt_iff.1 h
  refine standsAt_iff.2 ⟨front ++ xs, rest, by rw [hcs]; simp, ?_⟩
  rw [List.foldl_append, hloc]

/-- The lines of a text stand one below the other. -/
theorem StandsAt.line {ls : List (List Char)} (h : StandsAt cs loc (Text.unlines ls))
    (hls : ∀ l ∈ ls, '\n' ∉ l) {i : Nat} {l : List Char} (hi : ls[i]? = some l) :
    StandsAt cs (if i = 0 then loc else ⟨loc.line + i, 1⟩) l := by
  induction ls generalizing loc i with
  | nil => simp at hi
  | cons first ls ih =>
    cases ls with
    | nil =>
      obtain ⟨rfl, rfl⟩ : i = 0 ∧ first = l := by
        cases i with
        | zero => exact ⟨rfl, by simpa using hi⟩
        | succ i => simp at hi
      simpa [Text.unlines] using h
    | cons second ls =>
      rw [Text.unlines_cons_cons] at h
      cases i with
      | zero =>
        obtain rfl : first = l := by simpa using hi
        exact h.mono (List.prefix_append _ _)
      | succ i =>
        rw [List.append_cons] at h
        have hbehind := h.behind
        rw [Loc.foldl_next_of_line (hls first (by simp))] at hbehind
        have hline := ih hbehind (fun l hl => hls l (by simp [hl])) (by simpa using hi)
        rw [if_neg (by omega)]
        split at hline
        · rename_i h0
          subst h0
          exact hline
        · rw [Nat.add_assoc, Nat.add_comm 1 i] at hline
          exact hline

end StandsAt

end DocSignature.Source
