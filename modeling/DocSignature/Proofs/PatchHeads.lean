import DocSignature.Proofs.HeadLocal
import DocSignature.Proofs.Spots

/-!
# Heads of a patch

Where a head is recognised in the new text. Either all of it stays, and then it was recognised in
the old text, too; or it lies in what a swap writes.
-/

namespace DocSignature.Patch

open Header

/-- A head may start at each swap, and none that starts in front of it with one of some words goes
on up to it. -/
structure Apart (words : List String) (p : List Cell) : Prop where
  last : ∀ before c o n after, p = before ++ .kept c :: .swap o n :: after →
    mayStart (some c) = true
  words : ∀ before (xs : List Char) o n after,
    p = before ++ (xs.map .kept ++ .swap o n :: after) →
    (∀ c ∈ xs, isHeadChar c = true) → ∀ word ∈ words, ¬word.toList <+: xs

/-- Each head of the old text that stays is in a comment or a literal, where such heads are
allowed. -/
def HeadsCovered (find : Text.Recogniser Head) (allowed : Prop) (p : List Cell) : Prop :=
  ∀ before c after, p = before ++ .kept c :: after → ∀ r,
    find (text .old before).getLast? (text .old (.kept c :: after)) = some r →
    allowed ∧ Source.covers (Source.regions (text .old p)) (text .old before).length = true

/-- No head goes on behind blanks and a brace. -/
theorem head_ne_brace {word more blanks rest : List Char}
    (hword : ∀ c ∈ word, isHeadChar c = true) (hblanks : ∀ c ∈ blanks, Text.isBlank c = true) :
    word ++ '(' :: more ≠ blanks ++ '{' :: rest := by
  intro h
  rcases List.append_eq_append_iff.1 h with ⟨mid, rfl, hmid⟩ | ⟨mid, rfl, hmid⟩
  · cases mid with
    | nil => exact absurd (List.cons.inj hmid).1 (by decide)
    | cons c mid =>
      obtain rfl : '(' = c := (List.cons.inj hmid).1
      exact absurd (hblanks '(' (by simp)) (by decide)
  · cases mid with
    | nil => exact absurd (List.cons.inj hmid).1 (by decide)
    | cons c mid =>
      obtain rfl : '{' = c := (List.cons.inj hmid).1
      exact absurd (hword '{' (by simp)) (by decide)

/-- A word that is a name does not go on behind a character of no name. -/
theorem prefix_of_prefix_append {word xs ys : List Char}
    (hword : ∀ c ∈ word, Text.isNameChar c = true)
    (hlast : ∀ c ∈ xs.getLast?, Text.isNameChar c = false) (hne : xs ≠ [])
    (h : word <+: xs ++ ys) : word <+: xs := by
  rcases List.prefix_or_prefix_of_prefix h (List.prefix_append xs ys) with hx | ⟨more, rfl⟩
  · exact hx
  · have hc := List.getLast?_eq_some_getLast hne
    have hmem := hword _ (List.mem_append_left more (List.mem_of_getLast? hc))
    rw [hlast _ hc] at hmem
    cases hmem

theorem isNameChar_of_mayStart {c : Char} (h : mayStart (some c) = true) :
    Text.isNameChar c = false := by
  simp only [mayStart, Option.any_some, Bool.not_eq_true', Bool.or_eq_false_iff] at h
  exact h.1

/-- A word at the start of a head that stays does not reach a swap. -/
theorem Apart.head_kept {p : List Cell} {words : List String} (hapart : Apart words p)
    (hwords : Words words) {before q : List Cell} {c : Char}
    (hp : p = before ++ .kept c :: q) {word more : List Char}
    (hword : ∀ c ∈ word, isHeadChar c = true)
    (htext : text .new (.kept c :: q) = word ++ '(' :: more)
    {w : String} (hw : w ∈ words) (hbegins : w.toList <+: word ++ '(' :: more) :
    ∃ after, .kept c :: q = List.map .kept (word ++ ['(']) ++ after := by
  rcases kept_run .new (.kept c :: q) (word.length + 1) (by rw [htext]; simp) with
    ⟨xs, after, hq, hxs⟩ | ⟨xs, o, n, after, hq, hxs⟩
  · have hboth : xs ++ text .new after = (word ++ ['(']) ++ more := by
      rw [hq, text_append, text_kept] at htext
      simpa using htext
    obtain ⟨rfl, -⟩ := List.append_inj hboth (by simpa using hxs)
    exact ⟨after, hq⟩
  · exfalso
    have hxs' : xs <+: word := by
      rw [hq, text_append, text_kept] at htext
      exact List.prefix_of_prefix_length_le ⟨_, htext⟩ (List.prefix_append word _) (by omega)
    have hne : xs ≠ [] := by
      rintro rfl
      cases hq
    have hlast : ∀ d ∈ xs.getLast?, Text.isNameChar d = false := by
      intro d hd
      obtain ⟨ys, rfl⟩ := List.getLast?_eq_some_iff.1 hd
      apply isNameChar_of_mayStart
      refine hapart.last (before ++ ys.map .kept) d o n after ?_
      rw [hp, hq]
      simp
    obtain ⟨behind, hbehind⟩ := hxs'
    rw [← hbehind, List.append_assoc] at hbegins
    refine hapart.words before xs o n after (by rw [hp, hq]) ?_ w hw
      (prefix_of_prefix_append (hwords.chars w hw) hlast hne hbegins)
    intro d hd
    exact hword d (by simp [← hbehind, hd])

section Heads
variable {p : List Cell} (h : Sound p)
include h

/-- In front of a name that stays, both texts have the same character. -/
theorem Sound.getLast?_text {before after : List Cell} {c : Char}
    (hp : p = before ++ .kept c :: after) (hc : Text.isNameStart c = true) :
    (text .old before).getLast? = (text .new before).getLast? := by
  rcases List.eq_nil_or_concat before with rfl | ⟨front, cell, rfl⟩
  · rfl
  · cases cell with
    | kept d => simp [Cell.text]
    | swap o n =>
      -- Behind a swap there is a blank or a brace.
      rw [List.concat_eq_append, List.append_assoc] at hp
      obtain ⟨d, rest, hrest, hd⟩ := (hp ▸ h).suffix.kept_behind
      obtain rfl : c = d := by cases hrest; rfl
      rcases hd with rfl | hblank
      · exact absurd hc (by decide)
      · rw [Text.isBlank_eq_false_of_isPlainNameChar (Text.isPlainNameChar_of_isNameStart hc)]
          at hblank
        cases hblank

/-- A head that starts in a swap of the new text ends there. -/
theorem Sound.head_in_swap {before after : List Cell} {o n : List Char}
    (hp : p = before ++ .swap o n :: after) {word more : List Char}
    (hword : ∀ c ∈ word, isHeadChar c = true) {i : Nat} (hi : i < n.length)
    (htext : n.drop i ++ text .new after = word ++ '(' :: more) :
    i + (word.length + 1) ≤ n.length := by
  obtain ⟨blanks, behind, rfl, hblanks⟩ := h.brace before o n after hp
  by_contra hlong
  have hbrace : text .new (blanks.map .kept ++ .kept '{' :: behind) =
      blanks ++ '{' :: text .new behind := by simp [Cell.text]
  rw [hbrace] at htext
  rcases List.append_eq_append_iff.1 htext with ⟨mid, rfl, hmid⟩ | ⟨mid, hmid, hbehind⟩
  · exact head_ne_brace (fun c hc => hword c (by simp [hc])) hblanks hmid.symm
  · have hlen := congrArg List.length hmid
    rw [List.length_drop, List.length_append] at hlen
    obtain rfl : mid = [] := List.length_eq_zero_iff.1 (by omega)
    exact head_ne_brace (List.forall_mem_nil _) hblanks hbehind

variable {words : List String} (hwords : Words words) (hapart : Apart words p)
  {find : Text.Recogniser Head} (hheads : Heads find) (hlocal : Local find)
  (hstarts : Starts find words)
include hwords hapart hheads hlocal hstarts

/-- A head of the new text stays and was one of the old text, or a swap writes all of it. -/
theorem Sound.head_cases {front rest : List Char} (htext : text .new p = front ++ rest)
    {head : Head} {size : Nat} (hfind : find front.getLast? rest = some (head, size)) :
    (∃ before word after, p = before ++ (List.map .kept (word ++ ['(']) ++ after) ∧
      front = text .new before ∧ size = word.length + 1 ∧
      find (text .old before).getLast? (text .old (List.map .kept (word ++ ['(']) ++ after)) =
        some (head, size)) ∨
    ∃ before o n after i, p = before ++ .swap o n :: after ∧
      front.length = (text .new before).length + i ∧ i + size ≤ n.length := by
  obtain ⟨more, ⟨word, rfl, hword⟩, hlong⟩ := hheads _ _ _ _ hfind
  have hparen : '(' ∉ word := fun hmem => absurd (hword _ hmem) (by decide)
  have hsize : size = word.length + 1 := by
    rw [hlong, List.length_append, List.length_cons]
    omega
  have hlen : front.length < (text .new p).length := by
    rw [htext]
    simp only [List.length_append, List.length_cons]
    omega
  -- In a swap the brace behind it stops the head; else all of the head stays.
  obtain ⟨before, cell, after, i, hp, hi, hplace⟩ := cell_at .new p _ hlen
  have hsplit : text .new before ++ (cell.text .new ++ text .new after) =
      front ++ (word ++ '(' :: more) := by
    rw [← htext, hp]
    simp
  cases cell with
  | swap o n =>
    refine .inr ⟨before, o, n, after, i, hp, hplace, ?_⟩
    rw [hsize]
    have hdrop := congrArg (List.drop front.length) hsplit
    rw [List.drop_left, hplace, List.drop_append, List.drop_eq_nil_of_le (by omega),
      List.nil_append, Nat.add_sub_cancel_left, List.drop_append_of_le_length hi.le] at hdrop
    exact h.head_in_swap hp hword hi hdrop
  | kept c =>
    obtain rfl : i = 0 := by simpa [Cell.text] using hi
    obtain ⟨hfront, hbehind⟩ := List.append_inj hsplit hplace.symm
    obtain ⟨-, w, hw, hbegins⟩ := hstarts _ _ _ hfind
    have hc : Text.isNameStart c = true := by
      obtain ⟨d, ds, hwd, hd⟩ := hwords.start w hw
      obtain ⟨t, ht⟩ := hbegins
      rw [← hbehind, hwd] at ht
      obtain ⟨rfl, -⟩ : d = c ∧ ds ++ t = text .new after := by simpa [Cell.text] using ht
      exact hd
    obtain ⟨behind, hq⟩ := hapart.head_kept hwords hp hword hbehind hw hbegins
    refine .inl ⟨before, word, behind, by rw [hp, hq], hfront.symm, hsize, ?_⟩
    obtain ⟨r, hr⟩ := hlocal front.getLast? word hparen
    have hsame : r.map (fun head => (head, word.length + 1)) = some (head, size) := by
      rw [← hr, hfind]
    rw [h.getLast?_text hp hc, hfront, ← hsame, ← hr (text .old behind), text_append, text_kept,
      List.append_assoc]
    rfl

/-- A head of the new text is in a comment or a literal, or in what a swap writes. -/
theorem Sound.head_place {allowed : Prop} (hcovered : HeadsCovered find allowed p)
    {spots : List Spot} (hmarked : Marked p spots) {front rest : List Char}
    (htext : text .new p = front ++ rest) {head : Head} {size : Nat}
    (hfind : find front.getLast? rest = some (head, size)) :
    (allowed ∧ Source.covers (Source.regions (text .new p)) front.length = true) ∨
    ∃ before o n after i, p = before ++ .swap o n :: after ∧
      front.length = (text .new before).length + i ∧ i + size ≤ n.length := by
  rcases h.head_cases hwords hapart hheads hlocal hstarts htext hfind with
    ⟨before, word, after, hp, rfl, -, hold⟩ | hswap
  · left
    obtain ⟨c, q, hq⟩ : ∃ c q, List.map Cell.kept (word ++ ['(']) ++ after = .kept c :: q := by
      cases word <;> simp
    rw [hq] at hp hold
    obtain ⟨hallowed, hcov⟩ := hcovered before c q hp _ hold
    exact ⟨hallowed, h.covers_kept hmarked hp hcov⟩
  · exact .inr hswap

/-- No head of the new text reaches into a swap behind it. -/
theorem Sound.head_reach {front rest : List Char} (htext : text .new p = front ++ rest)
    {head : Head} {size : Nat} (hfind : find front.getLast? rest = some (head, size))
    {before after : List Cell} {o n : List Char} (hp : p = before ++ .swap o n :: after)
    (hlt : front.length < (text .new before).length) :
    front.length + size ≤ (text .new before).length := by
  rcases h.head_cases hwords hapart hheads hlocal hstarts htext hfind with
    ⟨b, word, a, hb, rfl, rfl, -⟩ | ⟨b, o', n', a, i, hb, hplace, hi⟩
  · obtain ⟨mid, rfl⟩ := h.prefix_of_length hb hp hlt.le
    rw [hb, List.append_assoc, List.append_cancel_left_eq] at hp
    rcases List.append_eq_append_iff.1 hp with ⟨t, rfl, -⟩ | ⟨t, ht, hswap⟩
    · simp only [text_append, text_kept, List.length_append, List.length_singleton]
      omega
    · cases t with
      | nil =>
        rw [List.append_nil] at ht
        rw [text_append, ← ht, text_kept]
        simp
      | cons cell t =>
        -- All cells of the head stay, and a swap would be one of them.
        obtain rfl : Cell.swap o n = cell := (List.cons.inj hswap).1
        have hmem : Cell.swap o n ∈ List.map Cell.kept (word ++ ['(']) := by simp [ht]
        simp at hmem
  · have hle : (text .new b).length ≤ (text .new before).length := by omega
    rcases h.cell_cases hb hp hle with ⟨rfl, -⟩ | hbehind
    · omega
    · rw [Cell.text] at hbehind
      omega

end Heads

end DocSignature.Patch
