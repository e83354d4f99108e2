import DocSignature.Proofs.Frame
import DocSignature.Proofs.ParamList

/-!
# When a conversion fails

The parameters of a list are never blank, so the only parameter without a name is one of C# with
nothing before its equals sign. A conversion fails exactly when some header of that form has such a
parameter, wherever in the source it stands.
-/

namespace DocSignature.Header

/-! ## Parameters without a name -/

theorem wordParam_eq_error_iff {word defaultText : Option (List Char)} :
    (∃ e, wordParam word defaultText = .error e) ↔ word = none := by
  cases word with
  | none => exact ⟨fun _ => rfl, fun _ => ⟨.nameless, rfl⟩⟩
  | some word => simp [wordParam]

/-- The text before the first equals sign is a prefix, and the sign follows it. -/
theorem eq_append_of_cutEquals? {ps after : List Piece} {before : List Char}
    (h : cutEquals? ps = some (before, after)) : chars ps = before ++ '=' :: chars after := by
  induction ps generalizing before with
  | nil => simp [cutEquals?] at h
  | cons p ps ih =>
    cases p with
    | literal text =>
      rw [cutEquals?] at h
      obtain ⟨⟨b, a⟩, hcut, heq⟩ := Option.map_eq_some_iff.1 h
      cases heq
      simp [ih hcut]
    | char c =>
      simp only [cutEquals?] at h
      split at h
      · rename_i hc
        cases h
        simp [hc]
      · obtain ⟨⟨b, a⟩, hcut, heq⟩ := Option.map_eq_some_iff.1 h
        cases heq
        simp [ih hcut]

/-- Of a trimmed text nothing is left before an equals sign only when it starts with the sign. -/
theorem allBlank_splitDefault_iff {cs : List Char} (h : Text.Trimmed cs) :
    Text.allBlank (splitDefault cs).1 = true ↔ cs.head? = some '=' := by
  constructor
  · intro hb
    unfold splitDefault at hb
    split at hb
    · rename_i before after hcut
      have hcs := eq_append_of_cutEquals? hcut
      rw [chars_pieces] at hcs
      cases before with
      | nil => simp [hcs]
      | cons c before =>
        -- A first character that is no blank would stay when the text before the sign is trimmed.
        have hc : Text.isBlank c = false := h.head c (by simp [hcs])
        have hne : Text.trim (c :: before) ≠ [] := by
          intro hnil
          have hp := Text.allBlank_of_trim_eq_nil hnil
          simp [Text.allBlank, hc] at hp
        rw [(Text.trimmed_trim hne).not_allBlank] at hb
        cases hb
    · rw [h.trim_eq, h.not_allBlank] at hb
      cases hb
  · intro hhead
    obtain ⟨rest, rfl⟩ : ∃ rest, cs = '=' :: rest := by
      cases cs with
      | nil => simp at hhead
      | cons c rest => exact ⟨rest, by simpa using hhead⟩
    have hcut : cutEquals? (pieces ('=' :: rest)) = some ([], pieces rest) := by
      rw [show '=' :: rest = ['='] ++ rest from rfl,
        pieces_append (Text.forall_mem_of_all (by decide))]
      simp [cutEquals?]
    simp [splitDefault, hcut, Text.trim, Text.trimLeft, Text.trimRight, Text.allBlank]

/-- A parameter has no name only in C#, when it starts with an equals sign. -/
theorem targetParam_eq_error_iff {language : Language} {cs : List Char} (h : Text.Trimmed cs) :
    (∃ e, targetParam language cs = .error e) ↔ language = .csharp ∧ cs.head? = some '=' := by
  cases language with
  | python => simp [targetParam]
  | go =>
    simp only [targetParam, wordParam_eq_error_iff, Text.firstWord?_eq_none_iff, h.not_allBlank]
    simp
  | java =>
    simp only [targetParam, wordParam_eq_error_iff, Text.lastWord?_eq_none_iff, h.not_allBlank]
    simp
  | csharp =>
    simp only [targetParam, wordParam_eq_error_iff, Text.lastWord?_eq_none_iff,
      allBlank_splitDefault_iff h]
    simp

/-! ## Headers with such a parameter -/

theorem targetParams_eq_error_iff (language : Language) (parts : List (List Char)) :
    (∃ e, targetParams language parts = .error e) ↔
      ∃ part ∈ parts, ∃ e, targetParam language part = .error e := by
  induction parts with
  | nil => simp [targetParams]
  | cons part parts ih =>
    simp only [targetParams, List.mem_cons, exists_eq_or_imp, ← ih]
    cases targetParam language part <;> cases targetParams language parts <;> simp

theorem readTargets_eq_error_iff (language : Language) (os : List Outline) :
    (∃ e, readTargets language os = .error e) ↔
      ∃ o ∈ os, ∃ e, targetParams language (splitParams true o.params) = .error e := by
  induction os with
  | nil => simp [readTargets]
  | cons o os ih =>
    simp only [readTargets, List.mem_cons, exists_eq_or_imp, ← ih]
    cases targetParams language (splitParams true o.params) <;> cases readTargets language os <;>
      simp

/-- Holds of a source with a header of C#, be it in a comment, in which a parameter starts with an
equals sign. -/
def HasNameless (cs : List Char) : Prop :=
  ∃ o ∈ outlines cs (targetHead? .csharp) (tail? .csharp),
    ∃ part ∈ splitParams true o.params, part.head? = some '='

theorem targetHeaders_eq_error_iff (language : Language) (cs : List Char) :
    (∃ e, targetHeaders language cs = .error e) ↔ language = .csharp ∧ HasNameless cs := by
  rw [targetHeaders, readTargets_eq_error_iff]
  simp only [targetParams_eq_error_iff]
  constructor
  · rintro ⟨o, ho, part, hpart, he⟩
    obtain ⟨rfl, hhead⟩ := (targetParam_eq_error_iff (trimmed_of_mem_splitParams hpart)).1 he
    exact ⟨rfl, o, ho, part, hpart, hhead⟩
  · rintro ⟨rfl, o, ho, part, hpart, hhead⟩
    exact ⟨o, ho, part, hpart,
      (targetParam_eq_error_iff (trimmed_of_mem_splitParams hpart)).2 ⟨rfl, hhead⟩⟩

end DocSignature.Header

namespace DocSignature.Conversion

theorem exists_convert_eq_ok_iff (t : Target) (source : String) :
    (∃ c, convert t source = .ok c) ↔
      ∃ targets, Header.targetHeaders t.language source.toList = .ok targets := by
  simp only [convert, Header.find, Header.candidates]
  cases Header.targetHeaders t.language source.toList <;> simp [Except.map]

/-- A conversion has a result for every source, language and type map, except for a source with a
header of C# in which a parameter starts with an equals sign, when the language is C#. -/
theorem convert_succeeds_iff (t : Target) (source : String) :
    (∃ c, convert t source = .ok c) ↔
      ¬(t.language = .csharp ∧ Header.HasNameless source.toList) := by
  rw [exists_convert_eq_ok_iff, ← Header.targetHeaders_eq_error_iff]
  cases Header.targetHeaders t.language source.toList with
  | error e =>
    constructor
    · rintro ⟨targets, h⟩
      cases h
    · intro h
      exact absurd ⟨e, rfl⟩ h
  | ok targets => simp

/-- A comment with such a header makes the conversion fail. -/
theorem convert_fails_in_comment :
    ¬∃ c, convert { language := .csharp } "// public static void f(= 1)" = .ok c := by
  have h : (convert { language := .csharp } "// public static void f(= 1)").isOk = false := by
    decide +kernel
  rintro ⟨c, hc⟩
  rw [hc] at h
  cases h

end DocSignature.Conversion
