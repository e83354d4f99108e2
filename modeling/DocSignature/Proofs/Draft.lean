import DocSignature.Proofs.Patch
import DocSignature.Proofs.ReadBack

/-!
# Drafts of headers

What a header is written from. A plain draft is written as a text with one opening parenthesis, on
one line and without quotes, in which the target language finds the header again and the source
language finds none at its start.
-/

namespace DocSignature.Header

/-- What a header is written from. -/
structure Draft where
  name : String
  params : List Rendered
  returns : Option String
  isAsync : Bool

namespace Draft

variable (language : Language)

/-- The parameters as they are written. -/
def list (d : Draft) : List String :=
  d.params.map (renderParam language language.policy.fallback)

/-- The header as it is written. -/
def text (d : Draft) : List Char :=
  (renderHeader language d.name (d.list language) d.returns d.isAsync).toList

/-- The header that is read from the written one. -/
def header (start : Nat) (d : Draft) : Header :=
  ⟨start, start + (d.text language).length, d.name,
    d.params.map fun p => ⟨p.name, writtenDefault language p⟩, marksAsync language d.isAsync⟩

/-- The text in front of the parameters. -/
def opening (d : Draft) : List Char :=
  lead language d.name d.returns d.isAsync

/-- The text behind the opening parenthesis. -/
def closing (d : Draft) : List Char :=
  joined ((d.list language).map String.toList) ++ ')' :: trail language d.returns

theorem text_eq (d : Draft) : d.text language = d.opening language ++ '(' :: d.closing language :=
  toList_renderHeader language d.name (d.list language) d.returns d.isAsync

/-- A draft that can be read back. -/
structure Plain (d : Draft) : Prop where
  name : IsIdentifier d.name.toList
  params : ∀ p ∈ d.params, PlainParam language p
  returns : ReturnLike language d.returns

variable {language} {d : Draft}

theorem Plain.solid (h : d.Plain language) : ∀ text ∈ d.list language, Solid text.toList := by
  intro text ht
  obtain ⟨p, hp, rfl⟩ := List.mem_map.1 ht
  exact solid_renderParam (h.params p hp)

/-- The parenthesis behind the opening is the only one that opens. -/
theorem Plain.paren (h : d.Plain language) : '(' ∉ d.closing language := by
  have hlevel : Level (joined ((d.list language).map String.toList)) := by
    apply level_joined
    intro text ht
    obtain ⟨s, hs, rfl⟩ := List.mem_map.1 ht
    exact (h.solid s hs).toLevel
  have htrail := paren_trail h.returns
  simp [closing, hlevel.paren, htrail]

theorem Plain.paren_drop (h : d.Plain language) {i : Nat}
    (hi : (d.opening language).length < i) : '(' ∉ (d.text language).drop i := by
  obtain ⟨k, rfl⟩ := Nat.exists_eq_add_of_lt hi
  rw [text_eq, Nat.add_assoc, ← List.drop_drop, List.drop_left, List.drop_succ_cons]
  exact fun hmem => h.paren (List.mem_of_mem_drop hmem)

/-- At its start the draft is recognised as a head. -/
theorem Plain.targetHead? (h : d.Plain language) {before : Option Char}
    (hbefore : mayStart before = true) (rest : List Char) :
    targetHead? language before (d.text language ++ rest) =
      some (⟨d.name, marksAsync language d.isAsync⟩, (d.opening language).length + 1) := by
  rw [text_eq, List.append_assoc]
  exact targetHead?_lead language d.isAsync hbefore h.name h.returns _

/-- A text that starts with none of the words of a function is no head of the source language. -/
theorem sourceHead?_eq_none {cs : List Char} (before : Option Char)
    (hexport : Text.after? "export".toList cs = none)
    (hfunction : functionWord? (optionalKeyword "async" cs).2 = none) :
    sourceHead? before cs = none := by
  have hnone : optionalKeyword "export" cs = (false, cs) := by
    simp only [optionalKeyword, keyword?, hexport, Option.bind_none]
  simp only [sourceHead?, hnone, Bool.false_eq_true, if_false, hfunction, Option.bind_none, headOf,
    Option.map_none, ite_self]

theorem sourceHead?_of_first {c : Char} {cs : List Char} (before : Option Char)
    (hc : c ≠ 'e' ∧ c ≠ 'a') (hfunction : Text.after? "function".toList (c :: cs) = none) :
    sourceHead? before (c :: cs) = none := by
  apply sourceHead?_eq_none
  · simp [Text.after?, hc.1.symm]
  · have hasync : optionalKeyword "async" (c :: cs) = (false, c :: cs) := by
      simp [optionalKeyword, keyword?, Text.after?, hc.2.symm]
    rw [hasync, functionWord?, hfunction]

/-- At its start no head of the source language is recognised. -/
theorem sourceHead?_text (d : Draft) (before : Option Char) (rest : List Char) :
    sourceHead? before (d.text language ++ rest) = none := by
  rw [text_eq, List.append_assoc]
  generalize '(' :: d.closing language ++ rest = behind
  cases language with
  | python =>
    change sourceHead? before
      ((if d.isAsync then "async def " else "def ").toList ++ d.name.toList ++ behind) = none
    cases d.isAsync with
    | false =>
      change sourceHead? before ('d' :: 'e' :: 'f' :: ' ' :: (d.name.toList ++ behind)) = none
      exact sourceHead?_of_first before (by decide) (by simp [Text.after?])
    | true =>
      have hkeyword : keyword? "async" ("async def ".toList ++ d.name.toList ++ behind) =
          some ("def ".toList ++ d.name.toList ++ behind) := by
        have hwords : "async def ".toList ++ d.name.toList ++ behind =
            "async".toList ++ ' ' :: ("def ".toList ++ d.name.toList ++ behind) := rfl
        rw [hwords]
        exact keyword?_append "async" (by simp; decide)
      apply sourceHead?_eq_none
      · simp [Text.after?]
      · rw [if_pos rfl, optionalKeyword, hkeyword]
        simp [functionWord?, Text.after?]
  | go =>
    change sourceHead? before ('f' :: 'u' :: 'n' :: 'c' :: ' ' :: (d.name.toList ++ behind)) = none
    exact sourceHead?_of_first before (by decide) (by simp [Text.after?])
  | java | csharp =>
    change sourceHead? before ('p' :: (_ ++ behind)) = none
    exact sourceHead?_of_first before (by decide) (by simp [Text.after?])

theorem Plain.outline? (h : d.Plain language) (front : List Char) (head : Head)
    {rest : List Char} (hrest : BraceAhead rest) :
    outline? (front ++ (d.text language ++ rest)) (tail? language)
        ⟨front.length, front.length + ((d.opening language).length + 1), head⟩ =
      some ⟨front.length, front.length + (d.text language).length, head,
        joined ((d.list language).map String.toList)⟩ :=
  outline?_renderHeader language front d.name d.isAsync head
    (fun text ht => (h.solid text ht).toWhole) h.returns hrest

theorem Plain.targetParams (h : d.Plain language) :
    targetParams language (splitParams true (joined ((d.list language).map String.toList))) =
      .ok (d.params.map fun p => ⟨p.name, writtenDefault language p⟩) := by
  rw [splitParams_joined, list, List.map_map]
  · exact targetParams_renderParam h.params
  · intro text ht
    obtain ⟨s, hs, rfl⟩ := List.mem_map.1 ht
    exact ⟨(h.solid s hs).toWhole, (h.solid s hs).toTrimmed⟩

end Draft

/-! ## Quiet drafts -/

theorem isQuiet_of_isPlainNameChar {c : Char} (h : Text.isPlainNameChar c = true) :
    Patch.isQuiet c = true := by
  rw [Patch.isQuiet, Bool.not_eq_true', Bool.eq_false_iff]
  intro hloud
  simp only [Source.isQuote, Bool.or_eq_true, beq_iff_eq] at hloud
  rcases hloud with ((((rfl | rfl) | rfl) | rfl) | rfl) | rfl <;> exact absurd h (by decide)

theorem quiet_of_identifier {name : List Char} (h : IsIdentifier name) :
    ∀ c ∈ name, Patch.isQuiet c = true :=
  fun c hc => isQuiet_of_isPlainNameChar (h.plain c hc)

theorem quiet_of_spelled {cs : List Char} (h : TypeText.Spelled cs) :
    ∀ c ∈ cs, Patch.isQuiet c = true := by
  intro c hc
  rcases TypeText.mem_of_nest cs h.2 c hc with hmem | hmark
  · exact List.all_eq_true.1 (by decide : "[]<>, ".toList.all Patch.isQuiet = true) c hmem
  · simp only [TypeText.isMark, Bool.or_eq_true, beq_iff_eq] at hmark
    rcases hmark with (hname | rfl) | rfl
    · exact isQuiet_of_isPlainNameChar hname
    · decide
    · decide

/-- A default that is cut off again as it was written, and quiet. -/
structure QuietDefault (cs : List Char) : Prop extends PlainDefault cs where
  quiet : ∀ c ∈ cs, Patch.isQuiet c = true

/-- The defaults of a draft are quiet. -/
def QuietDefaults (params : List Rendered) : Prop :=
  ∀ p ∈ params, ∀ text ∈ p.defaultText, ∀ c ∈ text.toList, Patch.isQuiet c = true

theorem quiet_declared (language : Language) {name : String} {type : Option String}
    (hname : IsIdentifier name.toList)
    (htype : ∀ text ∈ type, ∀ c ∈ text.toList, Patch.isQuiet c = true) :
    ∀ c ∈ (declared language name type).toList, Patch.isQuiet c = true := by
  have hq := quiet_of_identifier hname
  have hsigns : ∀ c ∈ ": final ".toList, Patch.isQuiet c = true :=
    Text.forall_mem_of_all (by decide)
  cases type with
  | none => exact hq
  | some text =>
    have ht := htype text rfl
    intro c hc
    cases language <;>
      simp only [declared, String.toList_append, List.mem_append] at hc <;>
      grind

theorem quiet_defaultSign (type : Option String) :
    ∀ c ∈ (defaultSign type).toList, Patch.isQuiet c = true := by
  have hsigns : ∀ c ∈ " = ".toList, Patch.isQuiet c = true := Text.forall_mem_of_all (by decide)
  cases type with
  | none => exact fun c hc => hsigns c (by simp_all [defaultSign])
  | some _ => exact hsigns

theorem quiet_renderParam {language : Language} {p : Rendered} (hp : PlainParam language p)
    (hvalue : ∀ text ∈ p.defaultText, ∀ c ∈ text.toList, Patch.isQuiet c = true) :
    ∀ c ∈ (renderParam language language.policy.fallback p).toList, Patch.isQuiet c = true := by
  have htype : ∀ text ∈ writtenType language language.policy.fallback p,
      ∀ c ∈ text.toList, Patch.isQuiet c = true := by
    intro text ht
    rcases writtenType_cases hp ht with hspelled | ⟨inner, hspelled, heq⟩
    · exact quiet_of_spelled hspelled
    · rw [heq]
      intro c hc
      rcases List.mem_append.1 hc with hc | hc
      · exact quiet_of_spelled hspelled c hc
      · rw [List.mem_singleton.1 hc]
        decide
  have hdeclared := quiet_declared language hp.name htype
  rw [renderParam_eq]
  cases hdefault : writtenDefault language p with
  | none => exact hdeclared
  | some text =>
    intro c hc
    simp only [withDefault, String.toList_append, List.mem_append] at hc
    rcases hc with (hc | hc) | hc
    · exact hdeclared c hc
    · exact quiet_defaultSign _ c hc
    · rcases writtenDefault_cases hdefault with hown | hword
      · exact hvalue text hown c hc
      · exact quiet_of_identifier hword c hc

namespace Draft

variable {language : Language} {d : Draft}

/-- The text in front of the parameters is quiet and starts like a word. -/
theorem Plain.quiet_opening (h : d.Plain language) : Patch.Quiet (d.opening language) := by
  have hname := quiet_of_identifier h.name
  cases language with
  | python =>
    change Patch.Quiet ((if d.isAsync then "async def " else "def ").toList ++ d.name.toList)
    cases d.isAsync with
    | false =>
      exact ⟨⟨'d', _, rfl, by decide⟩,
        List.forall_mem_append.2 ⟨Text.forall_mem_of_all (by decide), hname⟩⟩
    | true =>
      exact ⟨⟨'a', _, rfl, by decide⟩,
        List.forall_mem_append.2 ⟨Text.forall_mem_of_all (by decide), hname⟩⟩
  | go =>
    exact ⟨⟨'f', _, rfl, by decide⟩,
      List.forall_mem_append.2 ⟨Text.forall_mem_of_all (by decide), hname⟩⟩
  | java | csharp =>
    have htype := quiet_of_spelled (typeLike_typeOr_void h.returns).spelled
    have hspace : Patch.isQuiet ' ' = true := by decide
    refine ⟨⟨'p', _, rfl, by decide⟩,
      List.forall_mem_append.2 ⟨Text.forall_mem_of_all (by decide), ?_⟩⟩
    exact List.forall_mem_append.2 ⟨htype, List.forall_mem_cons.2 ⟨hspace, hname⟩⟩

theorem Plain.quiet_trail (h : d.Plain language) :
    ∀ c ∈ trail language d.returns, Patch.isQuiet c = true := by
  have hpart (sign : String) (hsign : ∀ c ∈ sign.toList, Patch.isQuiet c = true) :
      ∀ c ∈ (returnPart sign d.returns).toList, Patch.isQuiet c = true := by
    rcases returnPart_cases h.returns sign with hnone | ⟨text, hsome, htype⟩
    · simp [hnone]
    · rw [hsome, String.toList_append]
      exact List.forall_mem_append.2 ⟨hsign, quiet_of_spelled htype.spelled⟩
  cases language with
  | python => exact hpart " -> " (Text.forall_mem_of_all (by decide))
  | go => exact hpart " " (Text.forall_mem_of_all (by decide))
  | java | csharp => simp [trail]

/-- With quiet defaults the whole header is quiet. -/
theorem Plain.quiet (h : d.Plain language) (hvalues : QuietDefaults d.params) :
    Patch.Quiet (d.text language) := by
  obtain ⟨⟨c, rest, hc, hstart⟩, hopening⟩ := h.quiet_opening
  have hsigns : ∀ c ∈ "(, )".toList, Patch.isQuiet c = true := Text.forall_mem_of_all (by decide)
  have hlist : ∀ c ∈ joined ((d.list language).map String.toList), Patch.isQuiet c = true := by
    intro c hc
    rcases Text.mem_intercalate hc with hsep | ⟨xs, hxs, hc⟩
    · have hmem : c = ',' ∨ c = ' ' := by simpa using hsep
      rcases hmem with rfl | rfl <;> exact hsigns _ (by simp)
    · obtain ⟨text, ht, rfl⟩ := List.mem_map.1 hxs
      obtain ⟨p, hp, rfl⟩ := List.mem_map.1 ht
      exact quiet_renderParam (h.params p hp) (hvalues p hp) c hc
  rw [text_eq, closing]
  refine ⟨⟨c, _, by rw [hc, List.cons_append], hstart⟩, ?_⟩
  refine List.forall_mem_append.2 ⟨hopening, List.forall_mem_cons.2 ⟨hsigns _ (by simp), ?_⟩⟩
  exact List.forall_mem_append.2
    ⟨hlist, List.forall_mem_cons.2 ⟨hsigns _ (by simp), h.quiet_trail⟩⟩

end Draft

end DocSignature.Header
