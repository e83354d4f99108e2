import DocSignature.Text.Blank
import DocSignature.Text.Word
import Mathlib.Data.List.TakeWhile

/-!
# Classes of characters

How the classes of characters lie in one another. The characters of a plain name are characters of
every kind of name, and no blanks.
-/

namespace DocSignature.Text

/-- A property of the characters of a text, tried on each of them. -/
theorem forall_mem_of_all {p : Char → Prop} [DecidablePred p] {cs : List Char}
    (h : cs.all (fun c => p c) = true) : ∀ c ∈ cs, p c := by
  intro c hc
  exact of_decide_eq_true (List.all_eq_true.1 h c hc)

theorem forall_ne_of_not_mem {mark : Char} {cs : List Char} (h : mark ∉ cs) :
    ∀ c ∈ cs, (c != mark) = true := by
  intro c hc
  rw [bne_iff_ne]
  rintro rfl
  exact h hc

/-- A text goes up to a mark that it does not have itself. -/
theorem takeWhile_of_not_mem {mark : Char} {front : List Char} (h : mark ∉ front)
    (rest : List Char) : (front ++ mark :: rest).takeWhile (· != mark) = front := by
  rw [List.takeWhile_append_of_pos (forall_ne_of_not_mem h),
    List.takeWhile_cons_of_neg (by simp), List.append_nil]

theorem dropWhile_of_not_mem {mark : Char} {front : List Char} (h : mark ∉ front)
    (rest : List Char) : (front ++ mark :: rest).dropWhile (· != mark) = mark :: rest := by
  rw [List.dropWhile_append_of_pos (forall_ne_of_not_mem h),
    List.dropWhile_cons_of_neg (by simp)]

/-- A word without a character ends in front of that character. -/
theorem prefix_of_not_mem {word xs ys : List Char} {c : Char} (hc : c ∉ word)
    (h : word <+: xs ++ c :: ys) : word <+: xs := by
  obtain ⟨more, hmore⟩ := h
  rcases List.append_eq_append_iff.1 hmore with ⟨rest, rfl, -⟩ | ⟨rest, rfl, hrest⟩
  · exact List.prefix_append _ _
  · cases rest with
    | nil => simp
    | cons d rest =>
      obtain ⟨rfl, -⟩ := List.cons.inj hrest
      exact absurd (by simp) hc

theorem mem_intercalate {sep : List Char} {xss : List (List Char)} {c : Char}
    (h : c ∈ sep.intercalate xss) : c ∈ sep ∨ ∃ xs ∈ xss, c ∈ xs := by
  induction xss with
  | nil => simp at h
  | cons xs xss ih =>
    cases xss with
    | nil => exact .inr ⟨xs, by simp, by simpa using h⟩
    | cons ys yss =>
      rw [List.intercalate_cons_cons, List.mem_append, List.mem_append] at h
      rcases h with (h | h) | h
      · exact .inr ⟨xs, by simp, h⟩
      · exact .inl h
      · rcases ih h with h | ⟨zs, hzs, hc⟩
        · exact .inl h
        · exact .inr ⟨zs, by simp [hzs], hc⟩

theorem isAsciiLetter_iff (c : Char) :
    isAsciiLetter c = true ↔ (97 ≤ c.toNat ∧ c.toNat ≤ 122) ∨ (65 ≤ c.toNat ∧ c.toNat ≤ 90) := by
  simp only [isAsciiLetter, Bool.or_eq_true, Bool.and_eq_true, decide_eq_true_eq, Char.le_def,
    UInt32.le_iff_toNat_le]
  rfl

theorem isDigit_iff (c : Char) : ('0' ≤ c && c ≤ '9') = true ↔ 48 ≤ c.toNat ∧ c.toNat ≤ 57 := by
  simp only [Bool.and_eq_true, decide_eq_true_eq, Char.le_def, UInt32.le_iff_toNat_le]
  rfl

/-- Digits and letters of ASCII are alphanumeric. -/
theorem isAlphanumeric_of_ascii {c : Char}
    (h : (48 ≤ c.toNat ∧ c.toNat ≤ 57) ∨ (65 ≤ c.toNat ∧ c.toNat ≤ 90) ∨
      (97 ≤ c.toNat ∧ c.toNat ≤ 122)) : isAlphanumeric c = true := by
  -- Only the first turning points of the long table matter.
  obtain ⟨rest, hrest⟩ : ∃ rest, alphanumericTurns = 48 :: 58 :: 65 :: 91 :: 97 :: 123 :: rest :=
    ⟨_, rfl⟩
  simp only [isAlphanumeric, hrest, belongs]
  grind

theorem isPlainNameChar_of_isNameStart {c : Char} (h : isNameStart c = true) :
    isPlainNameChar c = true := by
  simp [isPlainNameChar, h]

/-- The characters that a plain name may consist of. -/
theorem isPlainNameChar_iff (c : Char) :
    isPlainNameChar c = true ↔ c = '_' ∨ c = '$' ∨ (48 ≤ c.toNat ∧ c.toNat ≤ 57) ∨
      (65 ≤ c.toNat ∧ c.toNat ≤ 90) ∨ (97 ≤ c.toNat ∧ c.toNat ≤ 122) := by
  have hl := isAsciiLetter_iff c
  have hd := isDigit_iff c
  simp only [isPlainNameChar, isNameStart, Bool.or_eq_true, beq_iff_eq, hl, hd]
  grind

theorem isNameChar_of_isPlainNameChar {c : Char} (h : isPlainNameChar c = true) :
    isNameChar c = true := by
  rcases (isPlainNameChar_iff c).1 h with rfl | rfl | h
  · rfl
  · rfl
  · simp [isNameChar, isWordChar, isAlphanumeric_of_ascii h]

theorem isNameChar_of_isNameStart {c : Char} (h : isNameStart c = true) : isNameChar c = true :=
  isNameChar_of_isPlainNameChar (isPlainNameChar_of_isNameStart h)

theorem isBlank_iff (c : Char) :
    isBlank c = true ↔ (9 ≤ c.toNat ∧ c.toNat ≤ 13) ∨ (28 ≤ c.toNat ∧ c.toNat ≤ 32) ∨
      c.toNat = 0x85 ∨ c.toNat = 0xA0 ∨ c.toNat = 0x1680 ∨
      (0x2000 ≤ c.toNat ∧ c.toNat ≤ 0x200A) ∨ c.toNat = 0x2028 ∨ c.toNat = 0x2029 ∨
      c.toNat = 0x202F ∨ c.toNat = 0x205F ∨ c.toNat = 0x3000 := by
  simp only [isBlank, Bool.or_eq_true, Bool.and_eq_true, decide_eq_true_eq, beq_iff_eq]
  omega

@[simp]
theorem isBlank_space : isBlank ' ' = true := rfl

@[simp]
theorem isBlank_paren : isBlank '(' = false := rfl

@[simp]
theorem isNameChar_paren : isNameChar '(' = false := by decide

theorem isBlank_eq_false_of_isPlainNameChar {c : Char} (h : isPlainNameChar c = true) :
    isBlank c = false := by
  rcases (isPlainNameChar_iff c).1 h with rfl | rfl | h
  · rfl
  · rfl
  · rw [Bool.eq_false_iff, Ne, isBlank_iff]
    omega

end DocSignature.Text
