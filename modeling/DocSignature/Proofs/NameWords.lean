import DocSignature.Proofs.Rename

/-!
# Words of a name

A name is parted into words in two passes, each of which replaces what it matches from left to
right. Together they do what one rule says that looks at three neighbours at a time: an underscore
goes behind every character that ends a word, and nowhere else.
-/

namespace DocSignature.Header

/-! ## Two passes -/

/-- A pass over a text: from left to right, each place that matches gets an underscore between the
two halves of the match, and the pass goes on behind it. Of the matches at one place the one with
the longest first half counts. -/
inductive Replaced (Matches : List Char → List Char → Prop) : List Char → List Char → Prop
  | nil : Replaced Matches [] []
  | hit {front back rest out : List Char} (hmatches : Matches front back)
      (hlongest : ∀ front' back' rest', front' ++ (back' ++ rest') = front ++ (back ++ rest) →
        Matches front' back' → front'.length ≤ front.length)
      (hrest : Replaced Matches rest out) :
      Replaced Matches (front ++ (back ++ rest)) (front ++ '_' :: (back ++ out))
  | miss {c : Char} {cs out : List Char}
      (hnone : ∀ front back rest, c :: cs = front ++ (back ++ rest) → ¬Matches front back)
      (hrest : Replaced Matches cs out) : Replaced Matches (c :: cs) (c :: out)

/-- Capitals in front of a capital with a small letter behind it. -/
structure Acronym (front back : List Char) : Prop where
  ne_nil : front ≠ []
  capitals : ∀ c ∈ front, isCapital c = true
  word : ∃ x y, back = [x, y] ∧ isCapital x = true ∧ isSmall y = true

/-- Holds of the characters that end a word in front of a capital. -/
def isWordEnd (c : Char) : Bool :=
  isSmall c || c.isDigit

/-- A small letter or digit in front of a capital. -/
def WordBreak (front back : List Char) : Prop :=
  ∃ a b, front = [a] ∧ back = [b] ∧ isWordEnd a = true ∧ isCapital b = true

theorem isSmall_of_isCapital {c : Char} (h : isCapital c = true) : isSmall c = false := by
  simp only [isCapital, isSmall, Bool.and_eq_true, decide_eq_true_eq, Bool.and_eq_false_iff,
    decide_eq_false_iff_not, Char.le_def, UInt32.le_iff_toNat_le] at h ⊢
  left
  have : 'Z'.val.toNat < 'a'.val.toNat := by decide
  omega

theorem isCapital_of_isSmall {c : Char} (h : isSmall c = true) : isCapital c = false := by
  by_contra hne
  rw [isSmall_of_isCapital (by simpa using hne)] at h
  cases h

theorem isWordEnd_of_isCapital {c : Char} (h : isCapital c = true) : isWordEnd c = false := by
  have hsmall := isSmall_of_isCapital h
  rw [isWordEnd, hsmall, Bool.false_or]
  simp only [isCapital, Char.isDigit, Bool.and_eq_true, decide_eq_true_eq, Bool.and_eq_false_iff,
    decide_eq_false_iff_not, Char.le_def, UInt32.le_iff_toNat_le, ge_iff_le] at h ⊢
  right
  have : '9'.val.toNat < 'A'.val.toNat := by decide
  omega

/-! ### Acronyms -/

/-- Some capitals, the last of them with a small letter behind it, at the start of a text. -/
def AcronymAhead (cs : List Char) : Prop :=
  ∃ run x y rest, cs = run ++ x :: y :: rest ∧ (∀ c ∈ run, isCapital c = true) ∧
    isCapital x = true ∧ isSmall y = true

theorem acronymAhead_of_small {c y : Char} (hc : isCapital c = true) (hy : isSmall y = true)
    (rest : List Char) : AcronymAhead (c :: y :: rest) :=
  ⟨[], c, y, rest, rfl, by simp, hc, hy⟩

theorem AcronymAhead.cons {c : Char} (hc : isCapital c = true) {cs : List Char}
    (h : AcronymAhead cs) : AcronymAhead (c :: cs) := by
  obtain ⟨run, x, y, rest, rfl, hrun, hx, hy⟩ := h
  exact ⟨c :: run, x, y, rest, rfl, List.forall_mem_cons.2 ⟨hc, hrun⟩, hx, hy⟩

/-- A text starts with a match when a capital stands before capitals of this kind. -/
theorem Acronym.ahead {c : Char} {cs front back rest : List Char}
    (h : c :: cs = front ++ (back ++ rest)) (hmatch : Acronym front back) :
    isCapital c = true ∧ AcronymAhead cs := by
  obtain ⟨d, run, rfl⟩ := List.exists_cons_of_ne_nil hmatch.ne_nil
  obtain ⟨x, y, rfl, hx, hy⟩ := hmatch.word
  obtain ⟨rfl, rfl⟩ := List.cons.inj h
  obtain ⟨hc, hrun⟩ := List.forall_mem_cons.1 hmatch.capitals
  exact ⟨hc, run, x, y, rest, rfl, hrun, hx, hy⟩

/-- The first half of a match goes up to the last capital. -/
theorem Acronym.length_takeWhile {front back : List Char} (h : Acronym front back)
    (rest : List Char) :
    ((front ++ (back ++ rest)).takeWhile isCapital).length = front.length + 1 := by
  obtain ⟨x, y, rfl, hx, hy⟩ := h.word
  rw [List.takeWhile_append_of_pos h.capitals]
  simp [hx, isCapital_of_isSmall hy]

/-- There is only one match at a place. -/
theorem Acronym.replaced {front back rest out : List Char} (h : Acronym front back)
    (hrest : Replaced Acronym rest out) :
    Replaced Acronym (front ++ (back ++ rest)) (front ++ '_' :: (back ++ out)) := by
  refine .hit h (fun front' back' rest' heq hother => ?_) hrest
  have hself := h.length_takeWhile rest
  rw [← heq, hother.length_takeWhile rest'] at hself
  omega

theorem splitAcronyms_run {run : List Char} (hrun : ∀ c ∈ run, isCapital c = true) {x y : Char}
    (hx : isCapital x = true) (hy : isSmall y = true) (rest : List Char) :
    splitAcronyms true (run ++ x :: y :: rest) =
      run ++ '_' :: x :: y :: splitAcronyms false rest := by
  induction run with
  | nil => simp [splitAcronyms, hx, hy, isCapital_of_isSmall hy]
  | cons c run ih =>
    obtain ⟨hc, hrun⟩ := List.forall_mem_cons.1 hrun
    have hhead : (run ++ x :: y :: rest).head?.any isSmall = false := by
      cases run with
      | nil => simp [isSmall_of_isCapital hx]
      | cons d run => simp [isSmall_of_isCapital (hrun d (by simp))]
    rw [List.cons_append, splitAcronyms, hhead, hc, ih hrun]
    simp

/-- The first pass. In the middle of a run of capitals it finds no match any more: one that started
there would have started with the run. -/
theorem replaced_splitAcronyms (cs : List Char) :
    ∀ inRun, (inRun = true → ¬AcronymAhead cs) → Replaced Acronym cs (splitAcronyms inRun cs) := by
  induction hn : cs.length using Nat.strong_induction_on generalizing cs with
  | _ n ih =>
    subst hn
    intro inRun hahead
    cases cs with
    | nil => exact .nil
    | cons c cs =>
      by_cases hmatch : isCapital c = true ∧ AcronymAhead cs
      · obtain ⟨hc, hcs⟩ := hmatch
        -- Behind another capital this match would have started earlier.
        obtain rfl : inRun = false := by
          by_contra hrun
          exact hahead (by simpa using hrun) (hcs.cons hc)
        obtain ⟨run, x, y, rest, rfl, hrun, hx, hy⟩ := hcs
        have hacronym : Acronym (c :: run) [x, y] :=
          ⟨List.cons_ne_nil _ _, List.forall_mem_cons.2 ⟨hc, hrun⟩, x, y, rfl, hx, hy⟩
        have hrest := ih rest.length (by simp; omega) rest rfl false (by simp)
        have hparted : splitAcronyms false (c :: (run ++ x :: y :: rest)) =
            c :: run ++ '_' :: ([x, y] ++ splitAcronyms false rest) := by
          rw [splitAcronyms, hc, splitAcronyms_run hrun hx hy]
          simp
        rw [hparted]
        exact hacronym.replaced hrest
      · have hboundary : (inRun && isCapital c && cs.head?.any isSmall) = false := by
          by_contra hne
          simp only [Bool.not_eq_false, Bool.and_eq_true, Option.any_eq_true] at hne
          obtain ⟨⟨hrun, hc⟩, y, hhead, hy⟩ := hne
          obtain ⟨rest, rfl⟩ := List.head?_eq_some_iff.1 hhead
          exact hahead hrun (acronymAhead_of_small hc hy rest)
        rw [splitAcronyms, hboundary]
        exact .miss (fun front back rest heq hother => hmatch (hother.ahead heq))
          (ih cs.length (by simp) cs rfl _ fun hc hcs => hmatch ⟨hc, hcs⟩)

/-! ### Breaks between words -/

theorem splitWords_none (c : Char) (cs : List Char) :
    splitWords none (c :: cs) = c :: splitWords (some c) cs := by
  simp [splitWords]

theorem splitWords_some (a c : Char) (cs : List Char) :
    splitWords (some a) (c :: cs) =
      (if isCapital c && isWordEnd a then ['_', c] else [c]) ++ splitWords (some c) cs := rfl

/-- The character before a text does not matter when no word breaks there. -/
theorem splitWords_eq_none {before : Char} {cs : List Char}
    (h : isWordEnd before = true → ∀ c ∈ cs.head?, isCapital c = false) :
    splitWords (some before) cs = splitWords none cs := by
  cases cs with
  | nil => rfl
  | cons c cs =>
    have hboundary : (isCapital c && isWordEnd before) = false := by
      by_contra hne
      simp only [Bool.not_eq_false, Bool.and_eq_true] at hne
      rw [h hne.2 c rfl] at hne
      cases hne.1
    rw [splitWords_some, hboundary, splitWords_none]
    rfl

/-- The second pass. -/
theorem replaced_splitWords : ∀ cs : List Char, Replaced WordBreak cs (splitWords none cs)
  | [] => .nil
  | [c] => by
    rw [splitWords_none]
    refine .miss ?_ .nil
    rintro _ _ rest h ⟨a, b, rfl, rfl, -⟩
    simp at h
  | a :: b :: cs => by
    by_cases hbreak : isWordEnd a = true ∧ isCapital b = true
    · obtain ⟨ha, hb⟩ := hbreak
      have hparted : splitWords none (a :: b :: cs) =
          [a] ++ '_' :: ([b] ++ splitWords none cs) := by
        rw [splitWords_none, splitWords_some, ha, hb,
          splitWords_eq_none (by simp [isWordEnd_of_isCapital hb])]
        rfl
      rw [hparted]
      refine .hit ⟨a, b, rfl, rfl, ha, hb⟩ ?_ (replaced_splitWords cs)
      rintro _ _ _ - ⟨a', b', rfl, -⟩
      exact Nat.le_refl _
    · rw [splitWords_none, splitWords_eq_none (by simpa using hbreak)]
      refine .miss ?_ (replaced_splitWords (b :: cs))
      rintro _ _ rest h ⟨a', b', rfl, rfl, ha, hb⟩
      cases h
      exact hbreak ⟨ha, hb⟩

/-! ## One rule -/

/-- Holds when a word ends with the character at a place: a small letter or digit in front of a
capital, or a capital in front of another one that a small letter follows. -/
def endsWord (name : List Char) (i : Nat) : Bool :=
  (name[i]?.any isWordEnd && name[i + 1]?.any isCapital) ||
    (name[i]?.any isCapital && name[i + 1]?.any isCapital && name[i + 2]?.any isSmall)

/-- A name in small letters, with an underscore behind each character that ends a word. -/
def underscored (name : List Char) : List Char :=
  (name.mapIdx fun i c => c.toLower :: if endsWord name i then ['_'] else []).flatten

theorem underscored_cons (c : Char) (cs : List Char) :
    underscored (c :: cs) =
      c.toLower :: ((if endsWord (c :: cs) 0 then ['_'] else []) ++ underscored cs) := by
  simp [underscored, List.mapIdx_cons, endsWord]

/-- Behind a character both passes together put an underscore, or nothing. -/
theorem words_cons_cons (a c : Char) (cs : List Char) :
    splitWords (some a) (splitAcronyms (isCapital a) (c :: cs)) =
      (if endsWord (a :: c :: cs) 0 then ['_'] else []) ++
        c :: splitWords (some c) (splitAcronyms (isCapital c) cs) := by
  have hends : endsWord (a :: c :: cs) 0 =
      ((isWordEnd a && isCapital c) || (isCapital a && isCapital c && cs.head?.any isSmall)) := by
    simp [endsWord, List.head?_eq_getElem?]
  cases hacronym : isCapital a && isCapital c && cs.head?.any isSmall with
  | true =>
    simp only [splitAcronyms, hends, hacronym, Bool.or_true, if_true, List.cons_append,
      List.nil_append]
    rw [splitWords_some, splitWords_some]
    simp [isWordEnd, isCapital, isSmall]
  | false =>
    simp only [splitAcronyms, hends, hacronym, Bool.or_false, Bool.false_eq_true, if_false,
      List.cons_append, List.nil_append]
    rw [splitWords_some, Bool.and_comm]
    split <;> rfl

theorem map_toLower_words (cs : List Char) : ∀ a : Char,
    a.toLower :: (splitWords (some a) (splitAcronyms (isCapital a) cs)).map Char.toLower =
      underscored (a :: cs) := by
  induction cs with
  | nil => intro a; simp [splitAcronyms, splitWords, underscored, endsWord]
  | cons c cs ih =>
    intro a
    rw [words_cons_cons, underscored_cons, List.map_append, List.map_cons, ih c]
    congr 2
    split <;> rfl

theorem snakeCase_eq_underscored {name : List Char} (h : ∀ c ∈ name, c.toNat < 128) :
    snakeCase name = underscored name := by
  rw [snakeCase_eq h]
  cases name with
  | nil => rfl
  | cons first rest => rw [words_cons, List.map_cons, map_toLower_words]

/-- The name of a function in small letters has one underscore behind each character that ends a
word, and is otherwise the same name. This is what the two passes come to, one after the other; a
name that has it is left as it is. -/
theorem functionName_parts_words (name : String) (h : ∀ c ∈ name.toList, c.toNat < 128) :
    (functionName .python name).toList = underscored name.toList ∧
    functionName .python (functionName .python name) = functionName .python name ∧
    ∃ mid parted, Replaced Acronym name.toList mid ∧ Replaced WordBreak mid parted ∧
      (functionName .python name).toList = parted.map Char.toLower := by
  have hname : (functionName .python name).toList = snakeCase name.toList :=
    String.toList_ofList
  refine ⟨hname.trans (snakeCase_eq_underscored h), ?_, splitAcronyms false name.toList, _,
    replaced_splitAcronyms _ _ (by simp), replaced_splitWords _, hname.trans (snakeCase_eq h)⟩
  simp only [functionName, String.toList_ofList, snakeCase_snakeCase h]

/-- Two acronyms, one of them behind a digit, and characters that belong to no word. -/
theorem functionName_parts_acronyms :
    (∀ c ∈ "parseHTTPResponse2XML_$vB".toList, c.toNat < 128) ∧
    (functionName .python "parseHTTPResponse2XML_$vB").toList =
      "parse_http_response2_xml_$v_b".toList ∧
    functionName .python (functionName .python "parseHTTPResponse2XML_$vB") =
      functionName .python "parseHTTPResponse2XML_$vB" := by
  have hascii : ∀ c ∈ "parseHTTPResponse2XML_$vB".toList, c.toNat < 128 :=
    Text.forall_mem_of_all (by decide)
  have hrule : underscored "parseHTTPResponse2XML_$vB".toList =
      "parse_http_response2_xml_$v_b".toList := by
    decide +kernel
  obtain ⟨hname, hagain, -⟩ := functionName_parts_words _ hascii
  exact ⟨hascii, hname.trans hrule, hagain⟩

end DocSignature.Header
