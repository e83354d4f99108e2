import DocSignature.Proofs.HeadShape

/-!
# Heads depend on their own text only

Whether a head starts at a place is decided by the text up to the first parenthesis. So is the head.
-/

namespace DocSignature.Header

/-! ## Readers in front of a parenthesis -/

/-- A reader that goes on to somewhere in front of the parenthesis, whatever stands behind it. -/
def Cuts (read : List Char → Option (List Char)) (front : List Char) : Prop :=
  ∃ r : Option (List Char), (∀ x ∈ r, '(' ∉ x) ∧
    ∀ rest, read (front ++ '(' :: rest) = r.map (· ++ '(' :: rest)

/-- A reader of a name that goes on to just behind the parenthesis, whatever stands there. -/
def Reads (read : List Char → Option (List Char × List Char)) (front : List Char) : Prop :=
  ∃ r : Option (List Char), ∀ rest, read (front ++ '(' :: rest) = r.map fun name => (name, rest)

theorem Cuts.bind {f g : List Char → Option (List Char)} {front : List Char} (hf : Cuts f front)
    (hg : ∀ x, '(' ∉ x → Cuts g x) : Cuts (fun cs => (f cs).bind g) front := by
  obtain ⟨r, hr, heq⟩ := hf
  cases r with
  | none => exact ⟨none, by simp, fun rest => by simp [heq]⟩
  | some x =>
    obtain ⟨r', hr', heq'⟩ := hg x (hr x rfl)
    exact ⟨r', hr', fun rest => by simp [heq, heq']⟩

theorem Cuts.reads {f : List Char → Option (List Char)}
    {g : List Char → Option (List Char × List Char)} {front : List Char} (hf : Cuts f front)
    (hg : ∀ x, '(' ∉ x → Reads g x) :
    Reads (fun cs => (f cs).bind g) front := by
  obtain ⟨r, hr, heq⟩ := hf
  cases r with
  | none => exact ⟨none, fun rest => by simp [heq]⟩
  | some x =>
    obtain ⟨r', heq'⟩ := hg x (hr x rfl)
    exact ⟨r', fun rest => by simp [heq, heq']⟩

theorem dropWhile_paren {q : Char → Bool} (hq : q '(' = false) (front rest : List Char) :
    (front ++ '(' :: rest).dropWhile q = front.dropWhile q ++ '(' :: rest := by
  induction front with
  | nil => simp [hq]
  | cons c cs ih => cases hc : q c <;> simp [hc, ih]

theorem takeWhile_paren {q : Char → Bool} (hq : q '(' = false) (front rest : List Char) :
    (front ++ '(' :: rest).takeWhile q = front.takeWhile q := by
  induction front with
  | nil => simp [hq]
  | cons c cs ih => cases hc : q c <;> simp [hc, ih]

theorem trimLeft_paren (front rest : List Char) :
    Text.trimLeft (front ++ '(' :: rest) = Text.trimLeft front ++ '(' :: rest :=
  dropWhile_paren (by decide) front rest

theorem paren_trimLeft {front : List Char} (h : '(' ∉ front) : '(' ∉ Text.trimLeft front :=
  fun hmem => h ((List.dropWhile_sublist _).subset hmem)

theorem cuts_after? {word : List Char} (hword : '(' ∉ word) :
    ∀ {front : List Char}, '(' ∉ front → Cuts (Text.after? word) front := by
  induction word with
  | nil => intro front h; exact ⟨some front, by simpa using h, fun rest => rfl⟩
  | cons w word ih =>
    intro front h
    cases front with
    | nil =>
      have hw : w ≠ '(' := fun heq => hword (by simp [heq])
      exact ⟨none, by simp, fun rest => by simp [Text.after?, hw]⟩
    | cons c cs =>
      by_cases hwc : w = c
      · obtain ⟨r, hr, heq⟩ := ih (fun hmem => hword (by simp [hmem]))
          (fun hmem => h (by simp [hmem]) : '(' ∉ cs)
        exact ⟨r, hr, fun rest => by simp [Text.after?, hwc, heq]⟩
      · exact ⟨none, by simp, fun rest => by simp [Text.after?, hwc]⟩

theorem cuts_blanks? {front : List Char} (h : '(' ∉ front) : Cuts Text.blanks? front := by
  cases front with
  | nil =>
    exact ⟨none, by simp, fun rest => by simp [Text.blanks?]⟩
  | cons c cs =>
    cases hc : Text.isBlank c with
    | false => exact ⟨none, by simp, fun rest => by simp [Text.blanks?, hc]⟩
    | true =>
      have hcs : '(' ∉ cs := fun hmem => h (by simp [hmem])
      refine ⟨some (Text.trimLeft cs), by simpa using paren_trimLeft hcs, fun rest => ?_⟩
      simp [Text.blanks?, hc, trimLeft_paren]

theorem cuts_keyword? {word : String} (hword : '(' ∉ word.toList) {front : List Char}
    (h : '(' ∉ front) : Cuts (keyword? word) front :=
  (cuts_after? hword h).bind fun _ hx => cuts_blanks? hx

/-- A keyword that may be missing is found or not, whatever stands behind the parenthesis. -/
theorem optionalKeyword_paren {word : String} (hword : '(' ∉ word.toList) {front : List Char}
    (h : '(' ∉ front) :
    ∃ found x, '(' ∉ x ∧
      ∀ rest, optionalKeyword word (front ++ '(' :: rest) = (found, x ++ '(' :: rest) := by
  obtain ⟨r, hr, heq⟩ := cuts_keyword? hword h
  cases r with
  | none => exact ⟨false, front, h, fun rest => by simp [optionalKeyword, heq]⟩
  | some x => exact ⟨true, x, hr x rfl, fun rest => by simp [optionalKeyword, heq]⟩

theorem cuts_functionWord? {front : List Char} (h : '(' ∉ front) : Cuts functionWord? front := by
  obtain ⟨r, hr, heq⟩ := cuts_after? (by decide : '(' ∉ "function".toList) h
  cases r with
  | none => exact ⟨none, by simp, fun rest => by simp only [functionWord?, heq, Option.map_none]⟩
  | some x =>
    have hx := hr x rfl
    have hword (rest : List Char) :
        (x ++ '(' :: rest).head?.any Text.isWordChar = x.head?.any Text.isWordChar := by
      have hparen : Text.isWordChar '(' = false := by decide
      cases x <;> simp [hparen]
    cases hany : x.head?.any Text.isWordChar with
    | true =>
      refine ⟨none, by simp, fun rest => ?_⟩
      simp only [functionWord?, heq, Option.map_some, hword, hany, if_true, Option.map_none]
    | false =>
      have htrim := paren_trimLeft hx
      cases hstart : Text.trimLeft x with
      | nil =>
        refine ⟨some [], by simp, fun rest => ?_⟩
        simp only [functionWord?, heq, Option.map_some, hword, hany, trimLeft_paren, hstart,
          List.nil_append]
        rfl
      | cons d more =>
        rw [hstart] at htrim
        have hmore : '(' ∉ more := fun hmem => htrim (by simp [hmem])
        by_cases hd : d = '*'
        · subst hd
          refine ⟨some (Text.trimLeft more), by simpa using paren_trimLeft hmore, fun rest => ?_⟩
          simp only [functionWord?, heq, Option.map_some, hword, hany, trimLeft_paren, hstart,
            List.cons_append]
          rfl
        · refine ⟨some (d :: more), by simpa using htrim, fun rest => ?_⟩
          simp only [functionWord?, heq, Option.map_some, hword, hany, trimLeft_paren, hstart,
            List.cons_append]
          simp [hd]

theorem reads_nameOpen? {front : List Char} (h : '(' ∉ front) : Reads nameOpen? front := by
  cases front with
  | nil =>
    have hparen : Text.isNameStart '(' = false := by decide
    exact ⟨none, fun rest => by simp [nameOpen?, hparen]⟩
  | cons c cs =>
    have hcs : '(' ∉ cs := fun hmem => h (by simp [hmem])
    cases hc : Text.isNameStart c with
    | false => exact ⟨none, fun rest => by simp [nameOpen?, hc]⟩
    | true =>
      have hdrop : '(' ∉ Text.trimLeft (cs.dropWhile Text.isNameChar) :=
        paren_trimLeft fun hmem => hcs ((List.dropWhile_sublist _).subset hmem)
      cases hbehind : Text.trimLeft (cs.dropWhile Text.isNameChar) with
      | nil =>
        refine ⟨some (c :: cs.takeWhile Text.isNameChar), fun rest => ?_⟩
        simp [nameOpen?, hc, dropWhile_paren Text.isNameChar_paren,
          takeWhile_paren Text.isNameChar_paren, trimLeft_paren, hbehind]
      | cons d more =>
        rw [hbehind] at hdrop
        have hd : d ≠ '(' := fun heq => hdrop (by simp [heq])
        refine ⟨none, fun rest => ?_⟩
        simp [nameOpen?, hc, dropWhile_paren Text.isNameChar_paren, trimLeft_paren, hbehind, hd]

theorem reads_nameBehind? {front : List Char} (h : '(' ∉ front) : Reads nameBehind? front := by
  induction front with
  | nil =>
    have hparen : isReturnChar '(' = false := by decide
    exact ⟨none, fun rest => by simp [nameBehind?, hparen]⟩
  | cons c cs ih =>
    have hcs : '(' ∉ cs := fun hmem => h (by simp [hmem])
    obtain ⟨here, hhere⟩ := reads_nameOpen? (paren_trimLeft hcs)
    obtain ⟨later, hlater⟩ := ih hcs
    refine ⟨(if Text.isBlank c then here else none).or (if isReturnChar c then later else none),
      fun rest => ?_⟩
    rw [List.cons_append, nameBehind?, Option.orElse_eq_or, trimLeft_paren, hhere, hlater]
    cases Text.isBlank c <;> cases isReturnChar c <;> cases here <;> simp

theorem reads_returnThenName? {front : List Char} (h : '(' ∉ front) :
    Reads returnThenName? front := by
  cases front with
  | nil =>
    have hparen : isReturnChar '(' = false := by decide
    exact ⟨none, fun rest => by simp [returnThenName?, hparen]⟩
  | cons c cs =>
    obtain ⟨r, hr⟩ := reads_nameBehind? (fun hmem => h (by simp [hmem]) : '(' ∉ cs)
    refine ⟨if isReturnChar c then r else none, fun rest => ?_⟩
    rw [List.cons_append, returnThenName?, hr]
    cases isReturnChar c <;> simp

theorem reads_staticName? {front : List Char} (h : '(' ∉ front) : Reads staticName? front := by
  have hdrop (rest : List Char) :
      (front ++ '(' :: rest).drop (front.takeWhile Text.isBlank).length =
        front.drop (front.takeWhile Text.isBlank).length ++ '(' :: rest :=
    List.drop_append_of_le_length (List.takeWhile_sublist _).length_le
  have hrest : '(' ∉ front.drop (front.takeWhile Text.isBlank).length :=
    fun hmem => h (List.mem_of_mem_drop hmem)
  obtain ⟨typed, htyped⟩ := reads_returnThenName? hrest
  obtain ⟨bare, hbare⟩ := reads_nameOpen? hrest
  refine ⟨if (front.takeWhile Text.isBlank).isEmpty then none else
    typed.or (if ((front.takeWhile Text.isBlank).drop 1).dropLast.contains ' ' then bare else none),
    fun rest => ?_⟩
  simp only [staticName?, takeWhile_paren Text.isBlank_paren, hdrop, htyped, hbare]
  split
  · rfl
  · cases typed with
    | some name => rfl
    | none =>
      simp only [Option.map_none, Option.none_or]
      split <;> rfl

/-! ## Whole heads -/

/-- A recogniser of heads that does not look past the first parenthesis. -/
def Local (find : Text.Recogniser Head) : Prop :=
  ∀ before front, '(' ∉ front → ∃ r : Option Head, ∀ rest,
    find before (front ++ '(' :: rest) = r.map fun head => (head, front.length + 1)

theorem headOf_paren (front rest : List Char) (isAsync : Bool) (name : Option (List Char)) :
    headOf (front ++ '(' :: rest) isAsync (name.map fun n => (n, rest)) =
      (name.map fun n => ⟨String.ofList n, isAsync⟩).map fun head => (head, front.length + 1) := by
  cases name with
  | none => rfl
  | some n => exact headOf_append front n rest isAsync

theorem local_source : Local sourceHead? := by
  intro before front h
  cases hstart : mayStart before with
  | false => exact ⟨none, fun rest => by simp [sourceHead?, hstart]⟩
  | true =>
    obtain ⟨exported, x, hx, hexport⟩ := optionalKeyword_paren (by decide : '(' ∉ "export".toList) h
    obtain ⟨_, y, hy, hdefault⟩ := optionalKeyword_paren (by decide : '(' ∉ "default".toList) hx
    obtain ⟨behind, hbehind, heq⟩ : ∃ z, '(' ∉ z ∧ ∀ rest,
        (if exported then (optionalKeyword "default" (x ++ '(' :: rest)).2 else x ++ '(' :: rest) =
          z ++ '(' :: rest := by
      cases exported with
      | true => exact ⟨y, hy, fun rest => by simp [hdefault]⟩
      | false => exact ⟨x, hx, fun rest => rfl⟩
    obtain ⟨isAsync, z, hz, hasync⟩ :=
      optionalKeyword_paren (by decide : '(' ∉ "async".toList) hbehind
    obtain ⟨name, hname⟩ := (cuts_functionWord? hz).reads fun _ hx => reads_nameOpen? hx
    refine ⟨name.map fun n => ⟨String.ofList n, isAsync⟩, fun rest => ?_⟩
    simp only [sourceHead?, hstart, hexport, heq, hasync, hname, headOf_paren]
    rfl

theorem local_target (language : Language) : Local (targetHead? language) := by
  intro before front h
  cases hstart : mayStart before with
  | false => exact ⟨none, fun rest => by simp [targetHead?, hstart]⟩
  | true =>
    cases language with
    | python =>
      obtain ⟨isAsync, x, hx, hasync⟩ := optionalKeyword_paren (by decide : '(' ∉ "async".toList) h
      obtain ⟨name, hname⟩ := (cuts_keyword? (by decide : '(' ∉ "def".toList) hx).reads
        fun _ hx => reads_nameOpen? hx
      refine ⟨name.map fun n => ⟨String.ofList n, isAsync⟩, fun rest => ?_⟩
      simp only [targetHead?, hstart, hasync, hname, headOf_paren]
      rfl
    | go =>
      obtain ⟨name, hname⟩ := (cuts_keyword? (by decide : '(' ∉ "func".toList) h).reads
        fun _ hx => reads_nameOpen? hx
      refine ⟨name.map fun n => ⟨String.ofList n, false⟩, fun rest => ?_⟩
      simp only [targetHead?, hstart, hname, headOf_paren]
      rfl
    | java | csharp =>
      obtain ⟨name, hname⟩ := ((cuts_keyword? (by decide : '(' ∉ "public".toList) h).bind
        fun _ hx => cuts_after? (by decide : '(' ∉ "static".toList) hx).reads
        fun _ hx => reads_staticName? hx
      refine ⟨name.map fun n => ⟨String.ofList n, false⟩, fun rest => ?_⟩
      simp only [targetHead?, hstart, hname, headOf_paren]
      rfl

/-! ## Words at the start of heads -/

/-- A recogniser of heads each of which starts with one of some words, where a head may start. -/
def Starts (find : Text.Recogniser Head) (words : List String) : Prop :=
  ∀ before cs r, find before cs = some r →
    mayStart before = true ∧ ∃ word ∈ words, word.toList <+: cs

theorem Starts.mono {find : Text.Recogniser Head} {words more : List String}
    (h : Starts find words) (hsub : words ⊆ more) : Starts find more := by
  intro before cs r hr
  obtain ⟨hmay, word, hword, hbegins⟩ := h before cs r hr
  exact ⟨hmay, word, hsub hword, hbegins⟩

/-- The words that a head of the source language may start with. -/
def sourceWords : List String := ["export", "async", "function"]

/-- The words that a head of a target language may start with. -/
def targetWords : Language → List String
  | .python => ["async", "def"]
  | .go => ["func"]
  | .java | .csharp => ["public"]

theorem prefix_of_after? {word cs rest : List Char} (h : Text.after? word cs = some rest) :
    word <+: cs :=
  ⟨rest, (eq_append_of_after? h).symm⟩

theorem prefix_of_keyword? {word : String} {cs rest : List Char}
    (h : keyword? word cs = some rest) : word.toList <+: cs := by
  obtain ⟨mid, hmid, -⟩ := Option.bind_eq_some_iff.1 h
  exact prefix_of_after? hmid

/-- A keyword that may be missing is there, or the text behind it is the whole text. -/
theorem optionalKeyword_cases (word : String) (cs : List Char) :
    word.toList <+: cs ∨ optionalKeyword word cs = (false, cs) := by
  unfold optionalKeyword
  split
  · rename_i rest h
    exact .inl (prefix_of_keyword? h)
  · exact .inr rfl

theorem prefix_of_functionWord? {cs rest : List Char} (h : functionWord? cs = some rest) :
    "function".toList <+: cs := by
  unfold functionWord? at h
  split at h
  · cases h
  · rename_i behind hbehind
    exact prefix_of_after? hbehind

theorem starts_source : Starts sourceHead? sourceWords := by
  intro before cs r h
  simp only [sourceHead?] at h
  split at h
  · cases h
  · rename_i hstart
    refine ⟨by simpa using hstart, ?_⟩
    obtain ⟨name, rest, hfound, -, -⟩ := headOf_eq_some h
    obtain ⟨behind, hfun, -⟩ := Option.bind_eq_some_iff.1 hfound
    rcases optionalKeyword_cases "export" cs with hword | hnone
    · exact ⟨"export", by simp [sourceWords], hword⟩
    · rw [hnone] at hfun
      rcases optionalKeyword_cases "async" cs with hword | hnone'
      · exact ⟨"async", by simp [sourceWords], hword⟩
      · refine ⟨"function", by simp [sourceWords], ?_⟩
        simp only [Bool.false_eq_true, if_false, hnone'] at hfun
        exact prefix_of_functionWord? hfun

theorem starts_target (language : Language) :
    Starts (targetHead? language) (targetWords language) := by
  intro before cs r h
  simp only [targetHead?] at h
  split at h
  · cases h
  · rename_i hstart
    refine ⟨by simpa using hstart, ?_⟩
    cases language with
    | python =>
      obtain ⟨name, rest, hfound, -, -⟩ := headOf_eq_some h
      obtain ⟨behind, hdef, -⟩ := Option.bind_eq_some_iff.1 hfound
      rcases optionalKeyword_cases "async" cs with hword | hnone
      · exact ⟨"async", by simp [targetWords], hword⟩
      · rw [hnone] at hdef
        exact ⟨"def", by simp [targetWords], prefix_of_keyword? hdef⟩
    | go =>
      obtain ⟨name, rest, hfound, -, -⟩ := headOf_eq_some h
      obtain ⟨behind, hfunc, -⟩ := Option.bind_eq_some_iff.1 hfound
      exact ⟨"func", by simp [targetWords], prefix_of_keyword? hfunc⟩
    | java | csharp =>
      obtain ⟨name, rest, hfound, -, -⟩ := headOf_eq_some h
      obtain ⟨behind, hstatic, -⟩ := Option.bind_eq_some_iff.1 hfound
      obtain ⟨more, hpublic, -⟩ := Option.bind_eq_some_iff.1 hstatic
      exact ⟨"public", by simp [targetWords], prefix_of_keyword? hpublic⟩

/-- Words that are names. -/
structure Words (words : List String) : Prop where
  start : ∀ word ∈ words, ∃ c rest, word.toList = c :: rest ∧ Text.isNameStart c = true
  chars : ∀ word ∈ words, ∀ c ∈ word.toList, Text.isNameChar c = true

theorem words_of_all {words : List String}
    (hstart : words.all (fun word => word.toList.head?.any Text.isNameStart) = true)
    (hchars : words.all (fun word => word.toList.all Text.isPlainNameChar) = true) :
    Words words := by
  refine ⟨fun word hw => ?_, fun word hw c hc => ?_⟩
  · have hany := List.all_eq_true.1 hstart word hw
    cases hword : word.toList with
    | nil => simp [hword] at hany
    | cons c rest => exact ⟨c, rest, rfl, by simpa [hword] using hany⟩
  · exact Text.isNameChar_of_isPlainNameChar
      (List.all_eq_true.1 (List.all_eq_true.1 hchars word hw) c hc)

/-- The words that a head of the source or of a target language may start with. -/
def headWords (language : Language) : List String :=
  sourceWords ++ targetWords language

theorem words_headWords (language : Language) : Words (headWords language) := by
  cases language <;> exact words_of_all (by decide) (by decide)

theorem starts_source_headWords (language : Language) :
    Starts sourceHead? (headWords language) :=
  starts_source.mono (List.subset_append_left _ _)

theorem starts_target_headWords (language : Language) :
    Starts (targetHead? language) (headWords language) :=
  (starts_target language).mono (List.subset_append_right _ _)

end DocSignature.Header
