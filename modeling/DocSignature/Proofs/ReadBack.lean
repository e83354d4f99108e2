import DocSignature.Proofs.Search
import DocSignature.Proofs.WrittenHead

/-!
# Reading back what was written

The recogniser of a target language reads a written header back: where it starts and stops, its
name, and the names and defaults of its parameters. With these defaults, the parameters are written
as they were.
-/

namespace DocSignature.Header

/-! ## The parts of a written parameter -/

/-- A default that is cut off again as it was written. -/
structure PlainDefault (cs : List Char) : Prop where
  trimmed : Text.Trimmed cs
  plain : ∀ c ∈ cs, isPlain c = true
  equals : '=' ∉ cs

/-- A parameter that can be read back. -/
structure PlainParam (language : Language) (p : Rendered) : Prop where
  name : IsIdentifier p.name.toList
  type : ∀ text ∈ p.typeText, TypeLike language text.toList
  value : ∀ text ∈ p.defaultText, PlainDefault text.toList

/-- The default that a written parameter has. -/
def writtenDefault (language : Language) (p : Rendered) : Option String :=
  match language with
  | .python => p.defaultText.or (if p.optional then some "None" else none)
  | .go | .java => none
  | .csharp => if p.optional then some (p.defaultText.getD "null") else p.defaultText

/-- The type that a written parameter has, if it has any. -/
def writtenType (language : Language) (fallback : String) (p : Rendered) : Option String :=
  match language with
  | .python => p.typeText.map fun type =>
    if p.optional && writtenDefault .python p = some "None" &&
        !optionalMark.toList.isPrefixOf type.toList then
      optionalMark ++ type ++ "]"
    else type
  | .go | .java => some (typeOr fallback p.typeText)
  | .csharp =>
    let type := typeOr fallback p.typeText
    some
      (if p.optional then (if type.toList.getLast? = some '?' then type else type ++ "?") else type)

/-- A written parameter without its default. -/
def declared (language : Language) (name : String) (type : Option String) : String :=
  match type with
  | none => name
  | some type =>
    match language with
    | .python => name ++ ": " ++ type
    | .go => name ++ " " ++ type
    | .java => "final " ++ type ++ " " ++ name
    | .csharp => type ++ " " ++ name

/-- What stands in front of a default. -/
def defaultSign (type : Option String) : String :=
  match type with
  | none => "="
  | some _ => " = "

theorem renderParam_eq (language : Language) (fallback : String) (p : Rendered) :
    renderParam language fallback p =
      withDefault (declared language p.name (writtenType language fallback p))
        (defaultSign (writtenType language fallback p)) (writtenDefault language p) := by
  obtain ⟨name, type, optional, value⟩ := p
  cases language with
  | python => cases type <;> cases value <;> cases optional <;> rfl
  | go | java => rfl
  | csharp => cases optional <;> rfl

/-- Written with the default that it was written with, a parameter stays as it is. Where it was
written with none, its own default may be kept or not. -/
theorem renderParam_writtenDefault (language : Language) (fallback : String) (p : Rendered)
    {kept : Option String} (hkept : kept = none ∨ kept = p.defaultText) :
    renderParam language fallback { p with defaultText := (writtenDefault language p).or kept } =
      renderParam language fallback p := by
  rcases hkept with rfl | rfl
  all_goals
    obtain ⟨name, type, optional, value⟩ := p
    cases language <;> cases optional <;> cases value <;> rfl

/-! ## Defaults -/

theorem cutEquals?_append {xs : List Char} (h : '=' ∉ xs) (ps : List Piece) :
    cutEquals? (xs.map .char ++ ps) =
      (cutEquals? ps).map fun (before, after) => (xs ++ before, after) := by
  induction xs with
  | nil => simp
  | cons x xs ih =>
    have hx : x ≠ '=' := by
      rintro rfl
      exact h (by simp)
    rw [List.map_cons, List.cons_append, cutEquals?, if_neg hx, ih fun hmem => h (by simp [hmem]),
      Option.map_map]
    rfl

theorem splitDefault_of_noEquals {cs : List Char} (htrim : Text.Trimmed cs)
    (hquote : ∀ c ∈ cs, Source.isQuote c = false) (hequals : '=' ∉ cs) :
    splitDefault cs = (cs, none) := by
  have hcut : cutEquals? (pieces cs) = none := by
    have := cutEquals?_append hequals []
    rw [pieces_of_noQuote hquote]
    simpa [cutEquals?] using this
  simp [splitDefault, hcut, htrim.trim_eq]

/-- A plain default is cut off with the sign in front of it and the blanks around the sign. -/
theorem splitDefault_equals {cs gap value : List Char} (htrim : Text.Trimmed cs)
    (hquote : ∀ c ∈ cs, Source.isQuote c = false) (hequals : '=' ∉ cs)
    (hgap : ∀ c ∈ gap, c = ' ') (hvalue : PlainDefault value) :
    splitDefault ((cs ++ gap) ++ '=' :: (gap ++ value)) = (cs, some value) := by
  have hblank : ∀ c ∈ gap, Text.isBlank c = true := by
    intro c hc
    rw [hgap c hc]
    decide
  have hplain : ∀ c ∈ (cs ++ gap) ++ '=' :: (gap ++ value), Source.isQuote c = false := by
    have hgap' : ∀ c ∈ gap, Source.isQuote c = false := by
      intro c hc
      rw [hgap c hc]
      decide
    intro c hc
    simp only [List.mem_append, List.mem_cons] at hc
    rcases hc with (hc | hc) | rfl | hc | hc
    · exact hquote c hc
    · exact hgap' c hc
    · decide
    · exact hgap' c hc
    · exact ((isPlain_iff c).1 (hvalue.plain c hc)).1
  have hfront : '=' ∉ cs ++ gap := by
    intro hmem
    rcases List.mem_append.1 hmem with hmem | hmem
    · exact hequals hmem
    · exact absurd (hgap _ hmem) (by decide)
  have hcut : cutEquals? (pieces ((cs ++ gap) ++ '=' :: (gap ++ value))) =
      some (cs ++ gap, (gap ++ value).map .char) := by
    rw [pieces_of_noQuote hplain, List.map_append, cutEquals?_append hfront]
    simp [cutEquals?]
  have hbefore : Text.trim (cs ++ gap) = cs := htrim.trim_append_blanks hblank
  have hafter : nonBlank? (gap ++ value) = some value := by
    obtain ⟨c, rest, hcons⟩ := List.exists_cons_of_ne_nil hvalue.trimmed.ne_nil
    rw [nonBlank?, hvalue.trimmed.trim_blanks_append hblank, hcons]
  rw [splitDefault, hcut]
  simp only [hbefore, chars_map_char, hafter]

theorem splitDefault_withDefault {text : String} (htrim : Text.Trimmed text.toList)
    (hquote : ∀ c ∈ text.toList, Source.isQuote c = false) (hequals : '=' ∉ text.toList)
    (type : Option String) {value : Option String}
    (hvalue : ∀ d ∈ value, PlainDefault d.toList) :
    splitDefault (withDefault text (defaultSign type) value).toList =
      (text.toList, value.map String.toList) := by
  cases value with
  | none => exact splitDefault_of_noEquals htrim hquote hequals
  | some d =>
    obtain ⟨gap, hgap, hsign⟩ : ∃ gap : List Char, (∀ c ∈ gap, c = ' ') ∧
        (defaultSign type).toList = gap ++ '=' :: gap := by
      cases type with
      | none => exact ⟨[], by simp, rfl⟩
      | some _ => exact ⟨[' '], by simp, by simp [defaultSign]⟩
    have htext : (withDefault text (defaultSign type) (some d)).toList =
        (text.toList ++ gap) ++ '=' :: (gap ++ d.toList) := by
      simp [withDefault, hsign]
    rw [htext, splitDefault_equals htrim hquote hequals hgap (hvalue d rfl), Option.map_some]

/-! ## Solid texts -/

/-- A whole text without blanks around it. -/
structure Solid (cs : List Char) : Prop extends Whole cs, Text.Trimmed cs

theorem Solid.join {xs mid ys : List Char} (hx : Solid xs) (hmid : ∀ c ∈ mid, isPlain c = true)
    (hy : Solid ys) : Solid (xs ++ mid ++ ys) where
  toWhole := (hx.toWhole.append (whole_of_plain hmid)).append hy.toWhole
  ne_nil := by simp [hx.ne_nil]
  head := by
    rw [List.append_assoc, List.head?_append_of_ne_nil _ hx.ne_nil]
    exact hx.head
  last := by
    rw [List.getLast?_append_of_ne_nil _ hy.ne_nil]
    exact hy.last

theorem solid_of_spelled {cs : List Char} (h : TypeText.Spelled cs) : Solid cs :=
  ⟨whole_of_spelled h, h.trimmed⟩

theorem solid_of_identifier {name : List Char} (h : IsIdentifier name) : Solid name :=
  solid_of_spelled ⟨h.ne_nil, TypeText.nest_of_marks (TypeText.isMark_of_isIdentifier h) []⟩

theorem PlainDefault.solid {cs : List Char} (h : PlainDefault cs) : Solid cs :=
  ⟨whole_of_plain h.plain, h.trimmed⟩

theorem equals_of_spelled {cs : List Char} (h : TypeText.Spelled cs) : '=' ∉ cs := by
  intro hmem
  rcases TypeText.mem_of_nest cs h.2 _ hmem with hmem | hmem <;> exact absurd hmem (by decide)

theorem equals_of_identifier {name : List Char} (h : IsIdentifier name) : '=' ∉ name :=
  h.not_mem (by decide)

/-! ## Written types -/

theorem spelled_typeOr {language : Language} {p : Rendered} (hp : PlainParam language p) :
    TypeText.Spelled (typeOr language.policy.fallback p.typeText).toList := by
  cases htype : p.typeText with
  | none => exact language.spelled_fallback
  | some text =>
    have hspelled := (hp.type text htype).spelled
    have hne : text ≠ "" := by
      rintro rfl
      exact hspelled.1 rfl
    rwa [typeOr, if_neg hne]

theorem spelled_optional {type : String} (h : TypeText.Spelled type.toList) :
    TypeText.Spelled (optionalMark ++ type ++ "]").toList := by
  refine ⟨by simp [optionalMark], ?_⟩
  have hmark : TypeText.nest [] optionalMark.toList = some [']'] := by decide +kernel
  rw [String.toList_append, String.toList_append, TypeText.nest_append, TypeText.nest_append, hmark,
    Option.bind_some, h.nest_eq, Option.bind_some]
  rfl

/-- A written type is properly nested, but for a question mark that C# adds. -/
theorem writtenType_cases {language : Language} {p : Rendered} (hp : PlainParam language p)
    {type : String} (ht : type ∈ writtenType language language.policy.fallback p) :
    TypeText.Spelled type.toList ∨
      ∃ inner, TypeText.Spelled inner ∧ type.toList = inner ++ ['?'] := by
  cases language with
  | python =>
    obtain ⟨text, htext, rfl⟩ := Option.map_eq_some_iff.1 ht
    have hspelled := (hp.type text htext).spelled
    split
    · exact .inl (spelled_optional hspelled)
    · exact .inl hspelled
  | go | java =>
    cases ht
    exact .inl (spelled_typeOr hp)
  | csharp =>
    cases ht
    have hspelled := spelled_typeOr hp
    split
    · split
      · exact .inl hspelled
      · exact .inr ⟨_, hspelled, by rw [String.toList_append]; rfl⟩
    · exact .inl hspelled

theorem solid_writtenType {language : Language} {p : Rendered} (hp : PlainParam language p)
    {type : String} (ht : type ∈ writtenType language language.policy.fallback p) :
    Solid type.toList ∧ '=' ∉ type.toList := by
  rcases writtenType_cases hp ht with hspelled | ⟨inner, hspelled, heq⟩
  · exact ⟨solid_of_spelled hspelled, equals_of_spelled hspelled⟩
  · have hmark : Solid ['?'] :=
      ⟨whole_of_plain (Text.forall_mem_of_all (by decide)), Text.trimmed_of_ends rfl rfl⟩
    rw [heq]
    refine ⟨?_, by simpa using equals_of_spelled hspelled⟩
    simpa using (solid_of_spelled hspelled).join (by simp : ∀ c ∈ [], isPlain c = true) hmark

theorem solid_declared (language : Language) {name : String} {type : Option String}
    (hname : IsIdentifier name.toList)
    (htype : ∀ text ∈ type, Solid text.toList ∧ '=' ∉ text.toList) :
    Solid (declared language name type).toList ∧ '=' ∉ (declared language name type).toList := by
  have hsolid := solid_of_identifier hname
  have hequals := equals_of_identifier hname
  cases type with
  | none => exact ⟨hsolid, hequals⟩
  | some text =>
    obtain ⟨ht, hte⟩ := htype text rfl
    have hspace : ∀ c ∈ " ".toList, isPlain c = true := Text.forall_mem_of_all (by decide)
    cases language with
    | python =>
      refine ⟨?_, by simp [declared, hequals, hte]⟩
      simpa only [declared, String.toList_append] using
        hsolid.join (Text.forall_mem_of_all (by decide) : ∀ c ∈ ": ".toList, isPlain c = true) ht
    | go =>
      refine ⟨?_, by simp [declared, hequals, hte]⟩
      simpa only [declared, String.toList_append] using hsolid.join hspace ht
    | java =>
      have hfinal : Solid "final".toList := solid_of_spelled (by decide)
      have hwords : "final ".toList = "final".toList ++ " ".toList := rfl
      refine ⟨?_, by simp [declared, hequals, hte]⟩
      simpa only [declared, String.toList_append, hwords] using
        (hfinal.join hspace ht).join hspace hsolid
    | csharp =>
      refine ⟨?_, by simp [declared, hequals, hte]⟩
      simpa only [declared, String.toList_append] using ht.join hspace hsolid

/-! ## Parameters -/

theorem plainDefault_word {word : String} (h : IsIdentifier word.toList) :
    PlainDefault word.toList where
  trimmed := (solid_of_identifier h).toTrimmed
  plain c hc := isPlain_of_isPlainNameChar (h.plain c hc)
  equals := equals_of_identifier h

/-- A written default is the default of the parameter, or the word that stands for none. -/
theorem writtenDefault_cases {language : Language} {p : Rendered} {text : String}
    (h : text ∈ writtenDefault language p) :
    text ∈ p.defaultText ∨ IsIdentifier text.toList := by
  cases language with
  | python =>
    rcases Option.or_eq_some_iff.1 h with hvalue | ⟨-, hnone⟩
    · exact .inl hvalue
    · split at hnone
      · cases hnone
        exact .inr ⟨'N', _, rfl, by decide, Text.forall_mem_of_all (by decide)⟩
      · cases hnone
  | go | java => cases h
  | csharp =>
    rw [writtenDefault] at h
    split at h
    · cases h
      cases hvalue : p.defaultText with
      | none => exact .inr ⟨'n', _, rfl, by decide, Text.forall_mem_of_all (by decide)⟩
      | some value => exact .inl rfl
    · exact .inl h

theorem plain_writtenDefault {language : Language} {p : Rendered} (hp : PlainParam language p) :
    ∀ text ∈ writtenDefault language p, PlainDefault text.toList := by
  intro text htext
  rcases writtenDefault_cases htext with hvalue | hword
  · exact hp.value text hvalue
  · exact plainDefault_word hword

theorem blank_identifier {name : List Char} (h : IsIdentifier name) :
    ∀ c ∈ name, Text.isBlank c = false := fun c hc =>
  Text.isBlank_eq_false_of_isPlainNameChar (h.plain c hc)

/-- In Python the name stands in front of the first colon. -/
theorem takeWhile_declared {name : String} (h : IsIdentifier name.toList) (type : Option String) :
    (declared .python name type).toList.takeWhile (· != ':') = name.toList := by
  have hname : ∀ c ∈ name.toList, (c != ':') = true := by
    intro c hc
    have := h.plain c hc
    rw [bne_iff_ne]
    rintro rfl
    exact absurd this (by decide)
  cases type with
  | none => exact List.takeWhile_eq_self_iff.2 hname
  | some text =>
    have htext : (declared .python name (some text)).toList =
        name.toList ++ ':' :: ' ' :: text.toList := by
      simp [declared]
    rw [htext, List.takeWhile_append_of_pos hname]
    simp

/-- In Java and C# the name is the last word. -/
theorem lastWord?_append_name {name : String} (h : IsIdentifier name.toList) (text : String) :
    Text.lastWord? (text ++ " " ++ name).toList = some name.toList := by
  rw [String.toList_append, String.toList_append]
  exact Text.lastWord?_append h.ne_nil (blank_identifier h) (by simp)

theorem plain_defaultSign (type : Option String) :
    ∀ c ∈ (defaultSign type).toList, isPlain c = true := by
  cases type with
  | none => exact Text.forall_mem_of_all (by decide)
  | some _ =>
    have hsign : ∀ c ∈ " = ".toList, isPlain c = true := Text.forall_mem_of_all (by decide)
    exact hsign

section Parameters
variable {language : Language} {p : Rendered} (hp : PlainParam language p)
include hp

/-- A written parameter stays whole in a list. -/
theorem solid_renderParam : Solid (renderParam language language.policy.fallback p).toList := by
  obtain ⟨hsolid, -⟩ := solid_declared language hp.name fun _ ht => solid_writtenType hp ht
  have hdefault := plain_writtenDefault hp
  rw [renderParam_eq]
  cases hvalue : writtenDefault language p with
  | none => exact hsolid
  | some value =>
    simpa only [withDefault, String.toList_append] using
      hsolid.join (plain_defaultSign _) (hdefault value hvalue).solid

/-- The name and the default of a written parameter are read back. -/
theorem targetParam_renderParam :
    targetParam language (renderParam language language.policy.fallback p).toList =
      .ok ⟨p.name, writtenDefault language p⟩ := by
  obtain ⟨hsolid, hequals⟩ := solid_declared language hp.name fun _ ht => solid_writtenType hp ht
  have hsplit := splitDefault_withDefault hsolid.toTrimmed hsolid.quote hequals
    (writtenType language language.policy.fallback p) (plain_writtenDefault hp)
  have hname := hp.name
  have hback : ((writtenDefault language p).map String.toList).map String.ofList =
      writtenDefault language p := by
    cases writtenDefault language p <;> simp
  rw [renderParam_eq]
  cases language with
  | python =>
    simp only [targetParam, hsplit, takeWhile_declared hname, hback,
      (solid_of_identifier hname).trim_eq, String.ofList_toList]
  | go =>
    have hword : Text.firstWord?
        (p.name ++ " " ++ typeOr (Language.policy .go).fallback p.typeText).toList =
        some p.name.toList := by
      rw [String.toList_append, String.toList_append, List.append_assoc]
      exact Text.firstWord?_append hname.ne_nil (blank_identifier hname) (by simp)
    simp only [targetParam, writtenType, writtenDefault, withDefault, declared, hword, wordParam,
      String.ofList_toList, Option.map_none]
  | java =>
    simp only [targetParam, writtenType, writtenDefault, withDefault, declared,
      lastWord?_append_name hname, wordParam, String.ofList_toList, Option.map_none]
  | csharp =>
    have hword : Text.lastWord? (declared .csharp p.name
        (writtenType .csharp (Language.policy .csharp).fallback p)).toList = some p.name.toList :=
      lastWord?_append_name hname _
    simp only [targetParam, hsplit, hword, wordParam, hback, String.ofList_toList]

end Parameters

theorem targetParams_renderParam {language : Language} {params : List Rendered}
    (h : ∀ p ∈ params, PlainParam language p) :
    targetParams language
        (params.map fun p => (renderParam language language.policy.fallback p).toList) =
      .ok (params.map fun p => ⟨p.name, writtenDefault language p⟩) := by
  induction params with
  | nil => rfl
  | cons p params ih =>
    rw [List.map_cons, targetParams, targetParam_renderParam (h p (by simp)),
      ih fun q hq => h q (by simp [hq])]
    rfl

/-! ## Headers -/

/-- No parenthesis stands behind the parameters of a header. -/
theorem paren_trail {language : Language} {returns : Option String}
    (h : ReturnLike language returns) : '(' ∉ trail language returns := by
  have hpart (sign : String) (hsign : '(' ∉ sign.toList) :
      '(' ∉ (returnPart sign returns).toList := by
    rcases returnPart_cases h sign with hnone | ⟨text, hsome, htype⟩
    · simp [hnone]
    · have hparen := (whole_of_spelled htype.spelled).paren
      simp [hsome, hsign, hparen]
  cases language with
  | python => exact hpart " -> " (by decide)
  | go => exact hpart " " (by decide)
  | java | csharp => simp [trail]

/-- A written header with a brace behind it is the only one in its text. -/
theorem outlines_renderHeader (language : Language) {name : String} {params : List String}
    {returns : Option String} (isAsync : Bool) (hname : IsIdentifier name.toList)
    (hparams : ∀ text ∈ params, Whole text.toList) (hreturns : ReturnLike language returns) :
    outlines (renderHeader language name params returns isAsync ++ " \x7b").toList
        (targetHead? language) (tail? language) =
      [⟨0, (renderHeader language name params returns isAsync).toList.length,
        ⟨name, marksAsync language isAsync⟩, joined (params.map String.toList)⟩] := by
  have hbrace : BraceAhead " \x7b".toList := rfl
  have houtline := outline?_renderHeader language [] name isAsync
    ⟨name, marksAsync language isAsync⟩ hparams hreturns hbrace
  have hlevel : Level (joined (params.map String.toList)) := by
    apply level_joined
    intro text ht
    obtain ⟨p, hp, rfl⟩ := List.mem_map.1 ht
    exact (hparams p hp).toLevel
  -- The only parenthesis that opens is the one behind the lead.
  have hafter : '(' ∉ joined (params.map String.toList) ++
      ')' :: (trail language returns ++ " \x7b".toList) := by
    have htrail := paren_trail hreturns
    simp [hlevel.paren, htrail]
  have htext : (renderHeader language name params returns isAsync ++ " \x7b").toList =
      (lead language name returns isAsync ++ ['(']) ++
        (joined (params.map String.toList) ++
          ')' :: (trail language returns ++ " \x7b".toList)) := by
    rw [String.toList_append, toList_renderHeader]
    simp only [List.append_assoc, List.cons_append, List.nil_append]
  have hfind := targetHead?_lead language isAsync (rfl : mayStart none = true) hname hreturns
    (joined (params.map String.toList) ++ ')' :: (trail language returns ++ " \x7b".toList))
  have hlength : (lead language name returns isAsync ++ ['(']).length =
      (lead language name returns isAsync).length + 1 := by simp
  have hhits : Text.hits (targetHead? language)
      (renderHeader language name params returns isAsync ++ " \x7b").toList =
      [⟨0, (lead language name returns isAsync).length + 1,
        ⟨name, marksAsync language isAsync⟩⟩] := by
    rw [htext, Text.hits_eq_singleton (heads_target language).paren_mem (by simp) _ hafter, hlength]
    simpa using hfind
  rw [outlines, hhits]
  rw [String.toList_append]
  simp only [List.nil_append, List.length_nil, Nat.zero_add] at houtline
  simp only [List.filterMap_cons, houtline, List.filterMap_nil]

/-! ## Types that were read -/

/-- A text that a language spells a type with, when the type and the imports were read. -/
def Emitted (language : Language) (text : String) : Prop :=
  ∃ (base : Loc) (cs : List Char) (e : TypeExpr) (tags : List Tag) (file file' : Option String),
    TypeExpr.read base cs = .ok e ∧ (∀ tag ∈ tags, tag.WasRead) ∧
      text = (TypeText.ofExpr (ImportTable.ofTags file tags).1 language.policy file' e).1

theorem Emitted.typeLike {language : Language} {text : String} (h : Emitted language text) :
    TypeLike language text.toList := by
  obtain ⟨base, cs, e, tags, file, file', hread, htags, rfl⟩ := h
  have htable := ImportTable.named_ofTags file htags
  have he := TypeExpr.named_of_read hread
  exact ⟨TypeText.keeps_ofExpr file' language.keeps_spelled htable he,
    TypeText.keeps_ofExpr file' language.keeps_isTypeChar htable he⟩

/-- A parameter to be written with an emitted type, if it has one, and a plain default, if it has
one. -/
structure Documented (language : Language) (p : Rendered) : Prop where
  name : IsIdentifier p.name.toList
  type : ∀ text ∈ p.typeText, Emitted language text
  value : ∀ text ∈ p.defaultText, PlainDefault text.toList

theorem Documented.plain {language : Language} {p : Rendered} (h : Documented language p) :
    PlainParam language p :=
  ⟨h.name, fun text ht => (h.type text ht).typeLike, h.value⟩

/-- A header that was written is read back: in front of a brace it is the one header there, from the
start to where it stops, with its name and the names of its parameters and the defaults that they
were written with. Written with the defaults that are read back, its parameters are the same again,
also when a parameter that has none there keeps its own. -/
theorem written_header_is_read_back (language : Language) (name : String) (params : List Rendered)
    (returns : Option String) (isAsync : Bool) (hname : IsIdentifier name.toList)
    (hparams : ∀ p ∈ params, Documented language p)
    (hreturns : ∀ text ∈ returns, Emitted language text) :
    let texts := params.map (renderParam language language.policy.fallback)
    let header := renderHeader language name texts returns isAsync
    ∃ outline read,
      outlines (header ++ " \x7b").toList (targetHead? language) (tail? language) = [outline] ∧
        outline.start = 0 ∧ outline.stop = header.length ∧ outline.head.name = name ∧
        targetParams language (splitParams true outline.params) = .ok read ∧
        read.map (·.name) = params.map (·.name) ∧
        read.map (·.defaultText) = params.map (writtenDefault language) ∧
        (params.zip read).map (fun (p, q) => renderParam language language.policy.fallback
          { p with defaultText := q.defaultText }) = texts ∧
        (params.zip read).map (fun (p, q) => renderParam language language.policy.fallback
          { p with defaultText := q.defaultText.or p.defaultText }) = texts := by
  intro texts header
  have hplain : ∀ p ∈ params, PlainParam language p := fun p hp => (hparams p hp).plain
  have hsolid : ∀ text ∈ texts, Solid text.toList := by
    intro text ht
    obtain ⟨p, hp, rfl⟩ := List.mem_map.1 ht
    exact solid_renderParam (hplain p hp)
  have hlike : ReturnLike language returns := fun text ht => .inr (hreturns text ht).typeLike
  -- No comma of a type or a default ends a parameter.
  have hsplit : splitParams true (joined (texts.map String.toList)) = texts.map String.toList := by
    apply splitParams_joined
    intro text ht
    obtain ⟨s, hs, rfl⟩ := List.mem_map.1 ht
    exact ⟨(hsolid s hs).toWhole, (hsolid s hs).toTrimmed⟩
  have houtlines := outlines_renderHeader language isAsync hname
    (fun text ht => (hsolid text ht).toWhole) hlike
  refine ⟨_, params.map fun p => ⟨p.name, writtenDefault language p⟩, houtlines, rfl,
    String.length_toList, rfl, ?_, ?_, ?_, ?_, ?_⟩
  · rw [hsplit, List.map_map]
    exact targetParams_renderParam hplain
  · rw [List.map_map]
    rfl
  · rw [List.map_map]
    rfl
  · rw [← List.map_prod_left_eq_zip, List.map_map]
    apply List.map_congr_left
    intro p _
    simpa using renderParam_writtenDefault language _ p (.inl rfl)
  · rw [← List.map_prod_left_eq_zip, List.map_map]
    exact List.map_congr_left fun p _ => renderParam_writtenDefault language _ p (.inr rfl)

/-- A type text that comes out of reading and spelling is an emitted one. -/
theorem emitted_of_read {language : Language} {text : String} (base : Loc) (cs : List Char)
    {tags : List Tag} (file : Option String) (htags : ∀ tag ∈ tags, tag.WasRead)
    (h : (TypeExpr.read base cs).toOption.map (fun e =>
      (TypeText.ofExpr (ImportTable.ofTags file tags).1 language.policy file e).1) = some text) :
    Emitted language text := by
  cases hread : TypeExpr.read base cs with
  | error cause => simp [hread, Except.toOption] at h
  | ok e =>
    simp only [hread, Except.toOption, Option.map_some, Option.some.injEq] at h
    exact ⟨base, cs, e, tags, file, file, hread, htags, h.symm⟩

/-- A union of an imported type, a parameter that may be left out and one with a default. -/
theorem union_header_is_read_back :
    let params : List Rendered :=
      [⟨"peers", some "typing.List[typing.Union[float, Conn]]", false, none⟩,
        ⟨"tag", some "str", true, none⟩, ⟨"n", none, true, some "-1"⟩]
    (∀ p ∈ params, Documented .python p) ∧ Emitted .python "Conn" ∧
      ∃ outline read,
        outlines ("async def f_1(peers: typing.List[typing.Union[float, Conn]], " ++
            "tag: typing.Optional[str] = None, n=-1) -> Conn \x7b").toList
            (targetHead? .python) (tail? .python) = [outline] ∧
          outline.start = 0 ∧ outline.stop = 108 ∧ outline.head.name = "f_1" ∧
          targetParams .python (splitParams true outline.params) = .ok read ∧
          read.map (·.name) = ["peers", "tag", "n"] ∧
          read.map (·.defaultText) = [none, some "None", some "-1"] ∧
          (params.zip read).map (fun (p, q) =>
              renderParam .python (Language.policy .python).fallback
                { p with defaultText := q.defaultText }) =
            ["peers: typing.List[typing.Union[float, Conn]]", "tag: typing.Optional[str] = None",
              "n=-1"] := by
  intro params
  have hraw : ∀ tag ∈ [(Tag.read none
      ⟨"import".toList, .first, "@import \x7bConn as Client\x7d from './net'".toList⟩).1],
      tag.WasRead := by
    intro tag ht
    exact ⟨none, _, List.mem_singleton.1 ht⟩
  have hunion : Emitted .python "typing.List[typing.Union[float, Conn]]" :=
    emitted_of_read .first "(number|Client)[]".toList none hraw (by decide +kernel)
  have hconn : Emitted .python "Conn" :=
    emitted_of_read .first "Client".toList none hraw (by decide +kernel)
  have hstr : Emitted .python "str" :=
    emitted_of_read .first "string".toList none hraw (by decide +kernel)
  have hparams : ∀ p ∈ params, Documented .python p := by
    intro p hp
    simp only [params, List.mem_cons, List.not_mem_nil, or_false] at hp
    rcases hp with rfl | rfl | rfl
    · exact ⟨⟨_, _, rfl, by decide, Text.forall_mem_of_all (by decide)⟩, by simpa using hunion,
        by simp⟩
    · exact ⟨⟨_, _, rfl, by decide, Text.forall_mem_of_all (by decide)⟩, by simpa using hstr,
        by simp⟩
    · refine ⟨⟨_, _, rfl, by decide, Text.forall_mem_of_all (by decide)⟩, by simp, ?_⟩
      rintro text ⟨⟩
      exact ⟨Text.trimmed_of_ends rfl rfl, Text.forall_mem_of_all (by decide), by decide⟩
  obtain ⟨outline, read, houtlines, hstart, hstop, hname, hread, hnames, hdefaults, hagain, -⟩ :=
    written_header_is_read_back .python "f_1" params (some "Conn") true
      ⟨_, _, rfl, by decide, Text.forall_mem_of_all (by decide)⟩ hparams (by simpa using hconn)
  exact ⟨hparams, hconn, outline, read, houtlines, hstart, hstop.trans (by decide +kernel), hname,
    hread, hnames, hdefaults, hagain.trans (by decide +kernel)⟩

end DocSignature.Header
