import DocSignature.Proofs.DiagnosticOrder
import DocSignature.Proofs.Frame
import DocSignature.Proofs.NameReport
import Mathlib.Data.List.Forall2

/-!
# One source in two languages

What there is to say about the tags of a source does not depend on the language that it is converted
to: every language knows the same builtin names, so the same names are unknown in all of them. Only
the message about an unknown name tells the language. The headers that are found do depend on the
language, but what is said about them is said apart.
-/

namespace DocSignature

/-! ## Diagnostics up to their wording -/

namespace Diagnostic

/-- The phases that go through the tags of a source. -/
def tagPhases : List Phase := [.parser, .imports, .resolve, .emit]

/-- Holds of a diagnostic that one of these phases found. -/
def isAboutTags (d : Diagnostic) : Bool :=
  d.phase.any tagPhases.contains

/-- Two diagnostics that differ at most in how they speak of an unknown name. -/
structure Alike (a b : Diagnostic) : Prop where
  phase : a.phase = b.phase
  kind : a.kind = b.kind
  severity : a.severity = b.severity
  span : a.span = b.span
  notes : a.notes = b.notes
  message : a.phase ≠ some .emit → a.message = b.message

/-- The diagnostic without the wording that may depend on the language. -/
def unworded (d : Diagnostic) : Diagnostic :=
  if d.phase = some .emit then { d with message := "" } else d

theorem span_unworded (d : Diagnostic) : d.unworded.span = d.span := by
  unfold unworded
  split <;> rfl

theorem isAboutTags_unworded (d : Diagnostic) : d.unworded.isAboutTags = d.isAboutTags := by
  unfold unworded
  split <;> rfl

theorem alike_of_unworded {a b : Diagnostic} (h : a.unworded = b.unworded) : a.Alike b := by
  obtain ⟨kind, message, phase, severity, span, notes⟩ := a
  obtain ⟨kind', message', phase', severity', span', notes'⟩ := b
  unfold unworded at h
  split at h <;> split at h <;> cases h
  · exact ⟨rfl, rfl, rfl, rfl, rfl, fun hphase => absurd ‹_› hphase⟩
  · simp_all
  · simp_all
  · exact ⟨rfl, rfl, rfl, rfl, rfl, fun _ => rfl⟩

/-- Lists that differ in wording only have the same length and are alike place by place. -/
theorem alike_of_map_unworded {ds ds' : List Diagnostic}
    (h : ds.map unworded = ds'.map unworded) : List.Forall₂ Alike ds ds' := by
  rw [← List.forall₂_eq_eq_eq, List.forall₂_map_left_iff, List.forall₂_map_right_iff] at h
  exact h.imp fun a b => alike_of_unworded

end Diagnostic

/-! ## Known names -/

theorem Dictionary.isSome_get?_iff {α : Type} (key : String) (d : Dictionary α) :
    (Dictionary.get? key d).isSome = true ↔ key ∈ d.map (·.1) := by
  induction d with
  | nil => simp [Dictionary.get?]
  | cons entry d ih =>
    obtain ⟨k, v⟩ := entry
    by_cases hk : k = key
    · simp [Dictionary.get?, hk]
    · simp [Dictionary.get?, hk, Ne.symm hk, ih]

/-- Every language has the same builtin names. -/
theorem Language.keys_builtins (language : Language) :
    language.policy.builtins.map (·.1) = Language.python.policy.builtins.map (·.1) := by
  cases language <;> rfl

/-- Two policies that know the same names. -/
def NamingPolicy.KnowsAlike (p q : NamingPolicy) : Prop :=
  ∀ name, (p.lookup name).isSome = (q.lookup name).isSome

/-- With the same type map every language knows the same names. -/
theorem Language.knowsAlike_policyWith (language other : Language)
    (typeMap : Dictionary (Option String)) :
    (language.policyWith typeMap).KnowsAlike (other.policyWith typeMap) := by
  intro name
  have hoverrides (l : Language) :
      (l.policyWith typeMap).overrides = Dictionary.merge [] typeMap := by
    cases l <;> rfl
  have hbuiltins (l : Language) : (l.policyWith typeMap).builtins = l.policy.builtins := rfl
  have hkeys : (Dictionary.get? name language.policy.builtins).isSome =
      (Dictionary.get? name other.policy.builtins).isSome := by
    rw [Bool.eq_iff_iff, Dictionary.isSome_get?_iff, Dictionary.isSome_get?_iff,
      language.keys_builtins, other.keys_builtins]
  unfold NamingPolicy.lookup
  rw [hoverrides, hoverrides, hbuiltins, hbuiltins]
  cases Dictionary.get? name (Dictionary.merge [] typeMap) with
  | some entry => rfl
  | none => exact hkeys

/-! ## What is said about types -/

namespace TypeText

variable {p q : NamingPolicy} (h : p.KnowsAlike q) (file : Option String)
include h

theorem unworded_emitRef (name : TypeRef) (target : RefTarget) :
    (emitRef p file name target).2.map Diagnostic.unworded =
      (emitRef q file name target).2.map Diagnostic.unworded := by
  cases target with
  | invalid | symbol | member => rfl
  | unbound =>
    have hknown := h name.text
    unfold emitRef
    cases hp : p.lookup name.text with
    | none =>
      rw [hp, Option.isSome_none, eq_comm, Option.isSome_eq_false_iff, Option.isNone_iff_eq_none]
        at hknown
      simp [hknown, unknownDiagnostic, Diagnostic.unworded]
    | some entry =>
      rw [hp, Option.isSome_some, eq_comm, Option.isSome_iff_exists] at hknown
      obtain ⟨other, hq⟩ := hknown
      simp [hq]

theorem unworded_ofExpr (table : ImportTable) (e : TypeExpr) :
    (ofExpr table p file e).2.map Diagnostic.unworded =
      (ofExpr table q file e).2.map Diagnostic.unworded := by
  have hsplit (r : NamingPolicy) : (ofExpr table r file e).2 =
      (Resolved.resolve table file e).2 ++ (emit r file (Resolved.resolve table file e).1).2 := rfl
  rw [hsplit, hsplit, List.map_append, List.map_append, emit_diagnostics, emit_diagnostics,
    List.map_flatMap, List.map_flatMap]
  simp only [unworded_emitRef h]

end TypeText

namespace Conversion

theorem unworded_tagDiagnostics (language other : Language) (typeMap : TypeMap)
    (file : Option String) (table : ImportTable) (tag : Tag) :
    (tagDiagnostics ⟨language, typeMap, file⟩ table tag).map Diagnostic.unworded =
      (tagDiagnostics ⟨other, typeMap, file⟩ table tag).map Diagnostic.unworded := by
  have htype (e : TypeExpr) :
      (typeOf ⟨language, typeMap, file⟩ table e).2.map Diagnostic.unworded =
        (typeOf ⟨other, typeMap, file⟩ table e).2.map Diagnostic.unworded := by
    unfold typeOf Target.policy
    exact TypeText.unworded_ofExpr (language.knowsAlike_policyWith other typeMap) file table e
  unfold tagDiagnostics
  split
  · rename_i param _
    cases param.type with
    | none => simp only [Option.map_none]
    | some e => simp only [Option.map_some, Option.getD_some, htype]
  · rename_i returns _
    cases returns.type with
    | none => simp only [Option.map_none]
    | some e =>
      simp only [Option.map_some, Option.getD_some]
      -- A type that says that nothing is returned is left alone in every language.
      by_cases hvoid : isVoid table e = true
      · simp only [returnTypeOf, hvoid, if_true]
      · simp only [returnTypeOf, hvoid, Bool.false_eq_true, if_false, htype]
  · rfl

theorem unworded_problemsOf (language other : Language) (typeMap : TypeMap)
    (file : Option String) (cs : List Char) :
    (problemsOf ⟨language, typeMap, file⟩ cs).map Diagnostic.unworded =
      (problemsOf ⟨other, typeMap, file⟩ cs).map Diagnostic.unworded := by
  unfold problemsOf
  simp only [List.map_append, List.map_flatMap, unworded_tagDiagnostics language other]
  rfl

/-- What is said about a header is not said about tags. -/
theorem filter_writtenHeader (t : Target) (cs : List Char) (headers : List Header) :
    (headers.flatMap fun k => (writtenHeader t cs k).2).filter Diagnostic.isAboutTags = [] := by
  rw [List.filter_eq_nil_iff]
  intro d hd
  obtain ⟨k, -, hd⟩ := List.mem_flatMap.1 hd
  obtain ⟨doc, -, rfl⟩ := List.mem_map.1 hd
  simp [unmatchedDiagnostic, Diagnostic.isAboutTags, Diagnostic.tagPhases]

/-- What a conversion says about tags: the problems of the tags by themselves, in order. -/
theorem filter_diagnostics {t : Target} {source : String} {c : Conversion}
    (h : convert t source = .ok c) :
    c.diagnostics.filter Diagnostic.isAboutTags =
      Diagnostic.sort ((problemsOf t source.toList).filter Diagnostic.isAboutTags) := by
  obtain ⟨headers, -, -, hdiagnostics⟩ := convert_eq_ok h
  rw [hdiagnostics, Diagnostic.filter_sort, List.filter_append, filter_writtenHeader,
    List.append_nil]

/-- Two conversions of one source into different languages say the same about its tags: the same
diagnostics in the same order, up to the messages about unknown names. -/
theorem convert_reports_tags_alike (language other : Language) (typeMap : TypeMap)
    (file : Option String) (source : String) (c c' : Conversion)
    (h : convert ⟨language, typeMap, file⟩ source = .ok c)
    (h' : convert ⟨other, typeMap, file⟩ source = .ok c') :
    List.Forall₂ Diagnostic.Alike (c.diagnostics.filter Diagnostic.isAboutTags)
      (c'.diagnostics.filter Diagnostic.isAboutTags) := by
  have hsort (ds : List Diagnostic) :
      (Diagnostic.sort (ds.filter Diagnostic.isAboutTags)).map Diagnostic.unworded =
        Diagnostic.sort ((ds.map Diagnostic.unworded).filter Diagnostic.isAboutTags) := by
    rw [Diagnostic.map_sort Diagnostic.span_unworded, List.filter_map]
    simp only [Function.comp_def, Diagnostic.isAboutTags_unworded]
  apply Diagnostic.alike_of_map_unworded
  rw [filter_diagnostics h, filter_diagnostics h', hsort, hsort,
    unworded_problemsOf language other]

/-- A documented type that no language knows, in front of a header of Python. -/
def unknownTypeSource : String :=
  "/** @param \x7bMissing\x7d a */ def f() \x7b\x7d"

/-- Python and Go report the unknown type at the same place, each in its own words. -/
theorem convert_reports_unknown_type_alike :
    ∃ c c', convert { language := .python } unknownTypeSource = .ok c ∧
      convert { language := .go } unknownTypeSource = .ok c' ∧
      (c.diagnostics.filter Diagnostic.isAboutTags).map (·.message) =
        ["unknown type 'Missing' (not imported, not a python builtin); emitted as written"] ∧
      (c'.diagnostics.filter Diagnostic.isAboutTags).map (·.message) =
        ["unknown type 'Missing' (not imported, not a go builtin); emitted as written"] ∧
      List.Forall₂ Diagnostic.Alike (c.diagnostics.filter Diagnostic.isAboutTags)
        (c'.diagnostics.filter Diagnostic.isAboutTags) := by
  have hpython : (convert { language := .python } unknownTypeSource).toOption.isSome = true := by
    decide +kernel
  have hgo : (convert { language := .go } unknownTypeSource).toOption.isSome = true := by
    decide +kernel
  obtain ⟨c, hc⟩ := Option.isSome_iff_exists.1 hpython
  obtain ⟨c', hc'⟩ := Option.isSome_iff_exists.1 hgo
  have hc := ok_of_toOption hc
  have hc' := ok_of_toOption hc'
  refine ⟨c, c', hc, hc', ?_, ?_, convert_reports_tags_alike .python .go [] none _ c c' hc hc'⟩
  · rw [filter_diagnostics hc]
    decide +kernel
  · rw [filter_diagnostics hc']
    decide +kernel

end Conversion

end DocSignature
