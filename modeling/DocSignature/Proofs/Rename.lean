import DocSignature.Header.Writer
import DocSignature.Proofs.Identifier

/-!
# Names of functions

The name that a target language gives to a function is an identifier when the function's name is
one, and it stays as it is when it is given again.
-/

namespace DocSignature.Header

/-! ## Small and capital forms in ASCII -/

/-- A property of the characters of ASCII, tried on each of them. -/
theorem forall_ascii {q : Char → Prop} (h : ∀ n < 128, q (Char.ofNat n)) {c : Char}
    (hc : c.toNat < 128) : q c := by
  have hq := h c.toNat hc
  rwa [Char.ofNat_toNat] at hq

theorem imageIn_eq_self {runs : List (Nat × Nat × Nat × Nat)} {n : Nat}
    (h : ∀ run ∈ runs, n < run.1) : Text.imageIn runs n = n := by
  induction runs with
  | nil => rfl
  | cons run runs ih =>
    obtain ⟨first, last, step, image⟩ := run
    have hfirst : ¬first ≤ n := by
      have := h _ (List.mem_cons_self ..)
      simp only at this
      omega
    simp [Text.imageIn, hfirst, ih fun run hr => h run (List.mem_cons_of_mem _ hr)]

/-- In ASCII only the first run matters, and no character has a long form. -/
theorem formIn_of_ascii {long : List (Nat × List Nat)} {run : Nat × Nat × Nat × Nat}
    {runs : List (Nat × Nat × Nat × Nat)} (hlong : ∀ entry ∈ long, 128 ≤ entry.1)
    (hruns : ∀ run ∈ runs, 128 ≤ run.1) {c : Char} (h : c.toNat < 128) :
    Text.formIn long (run :: runs) c = [Char.ofNat (Text.imageIn [run] c.toNat)] := by
  have hnone : long.lookup c.toNat = none := by
    rw [List.lookup_eq_none_iff]
    intro entry he
    have := hlong entry he
    simp
    omega
  have hself : Text.imageIn runs c.toNat = c.toNat :=
    imageIn_eq_self fun run hr => Nat.lt_of_lt_of_le h (hruns run hr)
  rw [Text.formIn, hnone]
  simp only [Text.imageIn, hself]

theorem lowerChar_of_ascii {c : Char} (h : c.toNat < 128) : Text.lowerChar c = [c.toLower] := by
  have hlong : ∀ entry ∈ Text.longLower, 128 ≤ entry.1 := by decide +kernel
  have hruns : ∀ run ∈ Text.lowerRuns.tail, 128 ≤ run.1 := by decide +kernel
  have hletters : Char.ofNat (Text.imageIn [(65, 90, 1, 97)] c.toNat) = c.toLower :=
    forall_ascii (q := fun c => Char.ofNat (Text.imageIn [(65, 90, 1, 97)] c.toNat) = c.toLower)
      (by decide +kernel) h
  exact (formIn_of_ascii hlong hruns h).trans (by rw [hletters])

theorem upperChar_of_ascii {c : Char} (h : c.toNat < 128) : Text.upperChar c = [c.toUpper] := by
  have hlong : ∀ entry ∈ Text.longUpper, 128 ≤ entry.1 := by decide +kernel
  have hruns : ∀ run ∈ Text.upperRuns.tail, 128 ≤ run.1 := by decide +kernel
  have hletters : Char.ofNat (Text.imageIn [(97, 122, 1, 65)] c.toNat) = c.toUpper :=
    forall_ascii (q := fun c => Char.ofNat (Text.imageIn [(97, 122, 1, 65)] c.toNat) = c.toUpper)
      (by decide +kernel) h
  exact (formIn_of_ascii hlong hruns h).trans (by rw [hletters])

theorem ascii_of_isPlainNameChar {c : Char} (h : Text.isPlainNameChar c = true) :
    c.toNat < 128 := by
  rcases (Text.isPlainNameChar_iff c).1 h with rfl | rfl | h
  · decide
  · decide
  · omega

theorem toLower_of_ascii {c : Char} (h : c.toNat < 128) :
    c.toLower.toNat < 128 ∧ isCapital c.toLower = false :=
  forall_ascii (q := fun c => c.toLower.toNat < 128 ∧ isCapital c.toLower = false)
    (by decide +kernel) h

theorem plain_toLower {c : Char} (h : Text.isPlainNameChar c = true) :
    Text.isPlainNameChar c.toLower = true :=
  forall_ascii (q := fun c => Text.isPlainNameChar c = true →
    Text.isPlainNameChar c.toLower = true) (by decide +kernel) (ascii_of_isPlainNameChar h) h

theorem start_toLower {c : Char} (h : Text.isNameStart c = true) :
    Text.isNameStart c.toLower = true :=
  forall_ascii (q := fun c => Text.isNameStart c = true → Text.isNameStart c.toLower = true)
    (by decide +kernel) (ascii_of_isPlainNameChar (Text.isPlainNameChar_of_isNameStart h)) h

theorem toLower_eq_self {c : Char} (h : c.toNat < 128) (hsmall : isCapital c = false) :
    c.toLower = c :=
  forall_ascii (q := fun c => isCapital c = false → c.toLower = c) (by decide +kernel) h hsmall

theorem start_toUpper {c : Char} (h : Text.isNameStart c = true) :
    Text.isNameStart c.toUpper = true ∧ c.toUpper.toUpper = c.toUpper :=
  forall_ascii (q := fun c => Text.isNameStart c = true →
    Text.isNameStart c.toUpper = true ∧ c.toUpper.toUpper = c.toUpper)
    (by decide +kernel) (ascii_of_isPlainNameChar (Text.isPlainNameChar_of_isNameStart h)) h

theorem lowerAfter_cons_of_ascii {c : Char} (hc : c.toNat < 128) (before cs : List Char) :
    Text.lowerAfter before (c :: cs) = c.toLower :: Text.lowerAfter (c :: before) cs := by
  have hsigma : (c == 'Σ') = false := by
    rw [beq_eq_false_iff_ne]
    rintro rfl
    exact absurd hc (by decide)
  rw [Text.lowerAfter, hsigma, lowerChar_of_ascii hc]
  rfl

/-- The small form of an ASCII text, character by character. -/
theorem lowerAfter_of_ascii {cs : List Char} (h : ∀ c ∈ cs, c.toNat < 128) :
    ∀ before, Text.lowerAfter before cs = cs.map Char.toLower := by
  induction cs with
  | nil => intro before; rfl
  | cons c cs ih =>
    intro before
    rw [lowerAfter_cons_of_ascii (h c (by simp)), ih (fun c hc => h c (by simp [hc])),
      List.map_cons]

/-! ## Words of a name -/

theorem mem_parted {boundary : Bool} {c d : Char} (h : c ∈ if boundary then ['_', d] else [d]) :
    c = '_' ∨ c = d := by
  cases boundary <;> simp_all

theorem mem_splitAcronyms {cs : List Char} {c : Char} :
    ∀ inRun, c ∈ splitAcronyms inRun cs → c = '_' ∨ c ∈ cs := by
  induction cs with
  | nil => intro inRun hc; cases hc
  | cons d cs ih =>
    intro inRun hc
    rcases List.mem_append.1 hc with hc | hc
    · exact (mem_parted hc).imp id fun heq => by simp [heq]
    · exact (ih _ hc).imp id (List.mem_cons_of_mem d)

theorem mem_splitWords {cs : List Char} {c : Char} :
    ∀ before, c ∈ splitWords before cs → c = '_' ∨ c ∈ cs := by
  induction cs with
  | nil => intro before hc; cases hc
  | cons d cs ih =>
    intro before hc
    rcases List.mem_append.1 hc with hc | hc
    · exact (mem_parted hc).imp id fun heq => by simp [heq]
    · exact (ih _ hc).imp id (List.mem_cons_of_mem d)

theorem mem_words {name : List Char} {c : Char}
    (h : c ∈ splitWords none (splitAcronyms false name)) : c = '_' ∨ c ∈ name :=
  (mem_splitWords _ h).elim .inl (mem_splitAcronyms _)

/-- Without capitals there is nothing to part. -/
theorem splitAcronyms_eq_self {cs : List Char} (h : ∀ c ∈ cs, isCapital c = false) :
    ∀ inRun, splitAcronyms inRun cs = cs := by
  induction cs with
  | nil => intro inRun; rfl
  | cons c cs ih =>
    intro inRun
    simp [splitAcronyms, h c (by simp), ih fun c hc => h c (by simp [hc])]

theorem splitWords_eq_self {cs : List Char} (h : ∀ c ∈ cs, isCapital c = false) :
    ∀ before, splitWords before cs = cs := by
  induction cs with
  | nil => intro before; rfl
  | cons c cs ih =>
    intro before
    simp [splitWords, h c (by simp), ih fun c hc => h c (by simp [hc])]

/-- The first character of a name starts its first word. -/
theorem words_cons (first : Char) (rest : List Char) :
    splitWords none (splitAcronyms false (first :: rest)) =
      first :: splitWords (some first) (splitAcronyms (isCapital first) rest) := by
  simp [splitAcronyms, splitWords]

/-! ## ASCII names -/

section Ascii
variable {name : List Char} (h : ∀ c ∈ name, c.toNat < 128)
include h

theorem ascii_words : ∀ c ∈ splitWords none (splitAcronyms false name), c.toNat < 128 := by
  intro c hc
  rcases mem_words hc with rfl | hc
  · decide
  · exact h c hc

theorem snakeCase_eq :
    snakeCase name = (splitWords none (splitAcronyms false name)).map Char.toLower :=
  lowerAfter_of_ascii (ascii_words h) []

theorem snakeCase_snakeCase : snakeCase (snakeCase name) = snakeCase name := by
  have hsmall : ∀ c ∈ snakeCase name, c.toNat < 128 ∧ isCapital c = false := by
    intro c hc
    rw [snakeCase_eq h] at hc
    obtain ⟨d, hd, rfl⟩ := List.mem_map.1 hc
    exact toLower_of_ascii (ascii_words h d hd)
  rw [snakeCase_eq fun c hc => (hsmall c hc).1, splitAcronyms_eq_self fun c hc => (hsmall c hc).2,
    splitWords_eq_self fun c hc => (hsmall c hc).2]
  refine (List.map_congr_left fun c hc => ?_).trans (List.map_id _)
  exact toLower_eq_self (hsmall c hc).1 (hsmall c hc).2

end Ascii

/-! ## Names -/

theorem ascii_of_isIdentifier {name : List Char} (h : IsIdentifier name) :
    ∀ c ∈ name, c.toNat < 128 :=
  fun c hc => ascii_of_isPlainNameChar (h.plain c hc)

/-- The words of an identifier make up an identifier. -/
theorem isIdentifier_words {name : List Char} (h : IsIdentifier name) :
    IsIdentifier (splitWords none (splitAcronyms false name)) := by
  have hplain : ∀ c ∈ splitWords none (splitAcronyms false name),
      Text.isPlainNameChar c = true := by
    intro c hc
    rcases mem_words hc with rfl | hc
    · decide
    · exact h.plain c hc
  obtain ⟨first, rest, rfl, hfirst, -⟩ := h
  rw [words_cons] at hplain ⊢
  exact ⟨first, _, rfl, hfirst, fun c hc => hplain c (by simp [hc])⟩

theorem isIdentifier_snakeCase {name : List Char} (h : IsIdentifier name) :
    IsIdentifier (snakeCase name) := by
  obtain ⟨first, rest, hwords, hfirst, hrest⟩ := isIdentifier_words h
  rw [snakeCase_eq (ascii_of_isIdentifier h), hwords]
  refine ⟨first.toLower, rest.map Char.toLower, rfl, start_toLower hfirst, fun c hc => ?_⟩
  obtain ⟨d, hd, rfl⟩ := List.mem_map.1 hc
  exact plain_toLower (hrest d hd)

theorem capitalised_eq {first : Char} (rest : List Char) (h : Text.isNameStart first = true) :
    capitalised (first :: rest) = first.toUpper :: rest := by
  rw [capitalised,
    upperChar_of_ascii (ascii_of_isPlainNameChar (Text.isPlainNameChar_of_isNameStart h))]
  rfl

/-- The name of a function is an identifier when its own name is one. -/
theorem isIdentifier_functionName (language : Language) {name : String}
    (h : IsIdentifier name.toList) : IsIdentifier (functionName language name).toList := by
  cases language with
  | python => simpa [functionName] using isIdentifier_snakeCase h
  | go | java => exact h
  | csharp =>
    obtain ⟨first, rest, hname, hfirst, hrest⟩ := h
    rw [functionName, String.toList_ofList, hname, capitalised_eq rest hfirst]
    exact ⟨_, rest, rfl, (start_toUpper hfirst).1, hrest⟩

/-- The name of a function stays as it is when it is given again. -/
theorem functionName_functionName (language : Language) {name : String}
    (h : IsIdentifier name.toList) :
    functionName language (functionName language name) = functionName language name := by
  cases language with
  | python =>
    simp only [functionName, String.toList_ofList, snakeCase_snakeCase (ascii_of_isIdentifier h)]
  | go | java => rfl
  | csharp =>
    obtain ⟨first, rest, hname, hfirst, -⟩ := h
    obtain ⟨hstart, hupper⟩ := start_toUpper hfirst
    simp only [functionName, hname, String.toList_ofList, capitalised_eq rest hfirst,
      capitalised_eq rest hstart, hupper]

end DocSignature.Header
