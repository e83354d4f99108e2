import DocSignature.Proofs.BareType
import DocSignature.Tag.Reader

/-!
# Defaults of optional parameters

An optional parameter is written in brackets, with its default behind an equals sign. It is read
back with its name and its default, be the default any text on one line without closing brackets.
-/

namespace DocSignature.Tag

/-! ## The name and the default -/

/-- An optional parameter in brackets, with its default. -/
def bracketed (name defaultText : List Char) : List Char :=
  '[' :: (name ++ '=' :: (defaultText ++ [']']))

theorem identifier?_append {name : List Char} (hname : IsIdentifier name) (rest : List Char) :
    identifier? (name ++ '=' :: rest) = some (name, '=' :: rest) := by
  obtain ⟨first, others, rfl, hfirst, hothers⟩ := hname
  have hcontinues : ∀ c ∈ others, (Text.isNameChar c || c == '.') = true := by
    intro c hc
    rw [Text.isNameChar_of_isPlainNameChar (hothers c hc), Bool.true_or]
  simp only [List.cons_append, identifier?, hfirst, if_true]
  rw [List.takeWhile_append_of_pos hcontinues, List.dropWhile_append_of_pos hcontinues,
    List.takeWhile_cons_of_neg (by decide), List.dropWhile_cons_of_neg (by decide), List.append_nil]

theorem optionalEnd?_default {defaultText : List Char} (htext : Text.Trimmed defaultText)
    (hbracket : ']' ∉ defaultText) :
    optionalEnd? ('=' :: (defaultText ++ [']'])) = some (some defaultText, []) := by
  have hinside : (defaultText ++ [']']).takeWhile (· != ']') = defaultText :=
    Text.takeWhile_of_not_mem hbracket []
  have hleft : Text.trimLeft ('=' :: (defaultText ++ [']'])) = '=' :: (defaultText ++ [']']) :=
    Text.trimLeft_eq_self (by simp; decide)
  simp only [optionalEnd?, hleft, hinside, List.drop_left, htext.trim_eq]
  simp [htext.ne_nil]

theorem paramName?_bracketed {name defaultText : List Char} (hname : IsIdentifier name)
    (htext : Text.Trimmed defaultText) (hbracket : ']' ∉ defaultText) :
    paramName? (' ' :: bracketed name defaultText) =
      some (⟨name, true, some defaultText⟩, []) := by
  have hleft : Text.trimLeft (' ' :: bracketed name defaultText) = bracketed name defaultText := by
    rw [← List.singleton_append, Text.trimLeft_append (by simp)]
    exact Text.trimLeft_eq_self (by simp [bracketed]; decide)
  have hinner : Text.trimLeft (name ++ '=' :: (defaultText ++ [']'])) =
      name ++ '=' :: (defaultText ++ [']']) := by
    apply Text.trimLeft_eq_self
    rw [List.head?_append_of_ne_nil _ hname.ne_nil]
    intro c hc
    exact Text.isBlank_eq_false_of_isPlainNameChar (hname.plain c (List.mem_of_mem_head? hc))
  rw [paramName?, hleft, bracketed]
  simp only [hinner, identifier?_append hname, optionalEnd?_default htext hbracket, Option.map_some]

/-! ## The type in front of the name -/

/-- The type between the braces of a tag is read, and what stands behind them is left. -/
theorem splitType_braces (name : List Char) (loc : Loc) {type : List Char} (hopen : '{' ∉ type)
    (hclose : '}' ∉ type) (rest : List Char) :
    splitType name loc (' ' :: '{' :: (type ++ '}' :: rest)) =
      match TypeExpr.read (loc.forward (name.length + 3)) type with
      | .ok e => .ok (some e, rest)
      | .error cause => .error ⟨.typeUnreadable cause, loc.forward (name.length + 3)⟩ := by
  have hblanks : (' ' :: '{' :: (type ++ '}' :: rest)).takeWhile Text.isBlank = [' '] := by
    rw [List.takeWhile_cons_of_pos (by decide), List.takeWhile_cons_of_neg (by decide)]
  have hdrop : (type ++ '}' :: rest).drop (type.length + 1) = rest := by
    rw [← List.drop_drop, List.drop_left]
    rfl
  simp only [splitType, hblanks, List.length_singleton, List.drop_succ_cons, List.drop_zero,
    braceEnd?_append hopen hclose, List.take_left, hdrop]
  rfl

/-- A tag that opens with a parameter's type is read as its type and what follows. -/
theorem readBody_paramOpening (loc : Loc) {type : List Char} (hopen : '{' ∉ type)
    (hclose : '}' ∉ type) (rest : List Char) :
    readBody ⟨"param".toList, loc, paramOpening ++ type ++ '}' :: rest⟩ =
      match TypeExpr.read (loc.forward ("param".toList.length + 3)) type with
      | .error cause =>
        .error ⟨.typeUnreadable cause, loc.forward ("param".toList.length + 3)⟩
      | .ok e =>
        match paramName? rest with
        | none => .error ⟨.nameMissing "param", loc⟩
        | some (p, after) =>
          .ok (.param ⟨some e, String.ofList p.name, p.optional,
            p.defaultText.map String.ofList, description after⟩) := by
  have hdrop : (paramOpening ++ type ++ '}' :: rest).drop ("param".toList.length + 1) =
      ' ' :: '{' :: (type ++ '}' :: rest) := by
    rw [paramOpening, List.cons_append, List.cons_append, List.drop_succ_cons, List.append_assoc,
      List.append_assoc, List.drop_left]
    simp
  have himport : ¬"param".toList = "import".toList := by simp
  have hparam : paramNames.contains "param".toList = true := by simp [paramNames]
  rw [readBody, if_neg himport, if_pos hparam, readParam, hdrop,
    splitType_braces _ _ hopen hclose]
  cases TypeExpr.read (loc.forward ("param".toList.length + 3)) type with
  | error cause => rfl
  | ok e =>
    rewrite [String.ofList_toList]
    rfl

/-! ## Optional parameters -/

/-- A tag that documents an optional parameter with a type and a default. -/
def optionalText (type name defaultText : List Char) : List Char :=
  paramOpening ++ type ++ '}' :: ' ' :: bracketed name defaultText

theorem rawTags_optionalText (loc : Loc) {type name defaultText : List Char} (hat : '@' ∉ type)
    (hname : IsIdentifier name) (hline : '\n' ∉ defaultText) :
    rawTags loc ("/** ".toList ++ optionalText type name defaultText ++ " */".toList) =
      [⟨"param".toList, loc.forward 4, optionalText (bareText type) name defaultText⟩] := by
  refine rawTags_paramOpening loc hat ?_ ?_
  · have hword : '\n' ∉ name := hname.not_mem (by decide)
    simp [bracketed, hword, hline]
  · have hlast : ('}' :: ' ' :: bracketed name defaultText).getLast? = some ']' := by
      simp [bracketed, List.getLast?_append, List.getLast?_cons]
    rw [hlast]
    exact fun c hc => by cases hc; decide

/-- An optional parameter with a default is read with its type, its name and its default, when no
later line of its type starts with a star; otherwise the tag is refused. -/
theorem optional_default_is_read (file : Option String) (loc : Loc)
    (type name defaultText : List Char) (e : TypeExpr) (htype : TypeExpr.read .first type = .ok e)
    (hname : IsIdentifier name) (htext : Text.Trimmed defaultText) (hline : '\n' ∉ defaultText)
    (hbracket : ']' ∉ defaultText) :
    (starLines type = 0 → ∃ raw read, read.unplaced = e.unplaced ∧
      readAll file loc ("/** ".toList ++ optionalText type name defaultText ++ " */".toList) =
        ([⟨loc.forward 4, raw, .param ⟨some read, String.ofList name, true,
          some (String.ofList defaultText), ""⟩⟩], [])) ∧
    (starLines type ≠ 0 → ∃ raw diagnostic,
      readAll file loc ("/** ".toList ++ optionalText type name defaultText ++ " */".toList) =
        ([⟨loc.forward 4, raw, .other "param"⟩], [diagnostic])) := by
  obtain ⟨d, hlexed, -⟩ := TypeExpr.exists_derivation_of_read htype
  obtain ⟨kept, hkept, -, -⟩ := lexed_bareText hlexed
  have htags := rawTags_optionalText loc (not_mem_type hlexed (by decide)) hname hline
  have hbody := readBody_paramOpening (loc.forward 4) (not_mem_type hkept (by decide))
    (not_mem_type hkept (by decide)) (' ' :: bracketed name defaultText)
  rw [readAll_single file htags, Tag.read, optionalText, hbody]
  constructor
  · intro hstar
    obtain ⟨read, hread, hunplaced⟩ := read_bareText htype hstar
      ((loc.forward 4).forward ("param".toList.length + 3))
    rw [hread, paramName?_bracketed hname htext hbracket]
    exact ⟨_, read, hunplaced, rfl⟩
  · intro hstar
    obtain ⟨error, hread⟩ := not_read_bareText htype hstar
      ((loc.forward 4).forward ("param".toList.length + 3))
    rw [hread]
    exact ⟨_, _, by rw [String.ofList_toList]⟩

/-- A type on two lines, and a default with blanks, quotes and another equals sign. -/
theorem optional_default_on_two_lines_is_read :
    let type := "a.B |\n  c[]".toList
    let defaultText := "f(1, '-') = 2".toList
    ∃ e, TypeExpr.read .first type = .ok e ∧ starLines type = 0 ∧
      ∃ raw read, read.unplaced = e.unplaced ∧
        readAll none .first
            ("/** ".toList ++ optionalText type "x".toList defaultText ++ " */".toList) =
          ([⟨Loc.first.forward 4, raw, .param ⟨some read, String.ofList "x".toList, true,
            some (String.ofList defaultText), ""⟩⟩], []) := by
  intro type defaultText
  have hread : (TypeExpr.read .first type).toOption.isSome = true := by decide +kernel
  have hstar : starLines type = 0 := by decide +kernel
  cases he : TypeExpr.read .first type with
  | error error =>
    rw [he] at hread
    cases hread
  | ok e =>
    exact ⟨e, rfl, hstar, (optional_default_is_read none .first type "x".toList defaultText e he
      (by decide +kernel) (Text.trimmed_of_ends (by decide +kernel) (by decide +kernel))
      (by decide +kernel) (by decide +kernel)).1 hstar⟩

/-- What a tag says about a parameter, its type apart: the name, whether it is optional, the default
and the description. -/
def paramOf (tag : Tag) : Option (String × Bool × Option String × String) :=
  match tag.body with
  | .param p => some (p.name, p.optional, p.defaultText, p.description)
  | _ => none

/-- A star that is the type's own is taken for decoration when it starts a line, and a default ends
at its first closing bracket. -/
theorem optional_default_is_cut :
    let starred := optionalText "A|\n*".toList "x".toList "1".toList
    let nested := optionalText "A".toList "x".toList "[]".toList
    (TypeExpr.read .first "A|\n*".toList).toOption.isSome = true ∧
    (readAll none .first ("/** ".toList ++ starred ++ " */".toList)).1.map paramOf = [none] ∧
    (readAll none .first ("/** ".toList ++ nested ++ " */".toList)).1.map paramOf =
      [some ("x", true, some "[", "]")] := by
  intro starred nested
  exact ⟨by decide +kernel, by decide +kernel, by decide +kernel⟩

end DocSignature.Tag
