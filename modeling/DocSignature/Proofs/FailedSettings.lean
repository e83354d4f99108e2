import DocSignature.Proofs.AcceptedSettings
import DocSignature.Proofs.LongNumber
import DocSignature.Proofs.Utf8

/-!
# How reading settings ends

Settings are accepted or refused with a problem, and four things go wrong in another way: a path
with a null character in it, bytes that are no text, a number with too many digits, and a threshold
that is a list or an object with something in it.
-/

namespace DocSignature

/-- The lists and objects with something in them. -/
inductive Json.IsCompound : Json → Prop where
  | list {item : Json} {items : List Json} : IsCompound (.arr (item :: items))
  | object {field : String × Json} {fields : List (String × Json)} :
    IsCompound (.obj (field :: fields))

namespace Config

/-- Reading ends as it should: something was read, or it is refused with a problem. -/
inductive Settled {α : Type} : Except Failure α → Prop where
  | accepted (a : α) : Settled (.ok a)
  | refused (problem : Problem) : Settled (.error (.refused problem))

theorem settled_pure {α : Type} (a : α) : Settled (pure a) :=
  .accepted a

theorem settled_mapError {α ε : Type} (x : Except ε α) (f : ε → Problem) :
    Settled (x.mapError fun e => .refused (f e)) := by
  cases x with
  | error e => exact .refused (f e)
  | ok a => exact .accepted a

theorem settled_refused {α : Type} (x : Except Problem α) : Settled (x.mapError .refused) :=
  settled_mapError x id

/-- Two steps end as they should when the first one does, and the second one after it. -/
theorem settled_bind_iff {α β : Type} {x : Except Failure α} {f : α → Except Failure β} :
    Settled (x >>= f) ↔ Settled x ∧ ∀ a, x = .ok a → Settled (f a) := by
  cases x with
  | error failure =>
    constructor
    · intro h
      cases h with
      | refused problem => exact ⟨.refused problem, fun a ha => nomatch ha⟩
    · rintro ⟨h, -⟩
      cases h with
      | refused problem => exact .refused problem
  | ok a =>
    constructor
    · intro h
      refine ⟨.accepted a, ?_⟩
      rintro _ ⟨⟩
      exact h
    · rintro ⟨-, h⟩
      exact h a rfl

/-! ## Values -/

/-- The threshold is reached, and it is a list or an object with something in it. -/
structure HasCompoundThreshold (json : Json) : Prop where
  supported : Supported json
  language : ∃ language, SetsLanguage json language
  compound : ∃ value, json.get? "log_level" = some value ∧ value.IsCompound

theorem settled_languageOf (json : Json) : Settled (languageOf json) := by
  unfold languageOf
  split
  · exact .accepted _
  · exact .accepted _
  · exact settled_mapError _ Problem.language

theorem settled_thresholdOf_iff (json : Json) :
    Settled (thresholdOf json) ↔
      ¬∃ value, json.get? "log_level" = some value ∧ value.IsCompound := by
  unfold thresholdOf
  cases json.get? "log_level" with
  | none => simpa using Settled.accepted _
  | some value =>
    simp only [Option.some.injEq, exists_eq_left']
    cases value with
    | str label =>
      refine iff_of_true ?_ (fun h => nomatch h)
      split
      · exact .accepted _
      · dsimp only
        split
        · exact .accepted _
        · exact .refused _
    | arr items =>
      cases items with
      | nil => exact iff_of_true (.accepted _) (fun h => nomatch h)
      | cons item items => exact iff_of_false (fun h => nomatch h) (not_not_intro .list)
    | obj fields =>
      cases fields with
      | nil => exact iff_of_true (.accepted _) (fun h => nomatch h)
      | cons field fields => exact iff_of_false (fun h => nomatch h) (not_not_intro .object)
    | null | bool | int | real =>
      refine iff_of_true ?_ (fun h => nomatch h)
      split
      · exact .accepted _
      · exact .refused _

theorem settled_readKeys_iff (json : Json) :
    Settled (readKeys json) ↔
      ∀ language, SetsLanguage json language →
        ¬∃ value, json.get? "log_level" = some value ∧ value.IsCompound := by
  simp only [readKeys, settled_bind_iff, settled_languageOf, settled_thresholdOf_iff,
    settled_refused, settled_pure, languageOf_eq_ok_iff, true_and, implies_true, and_true]

theorem settled_ofJson_iff (json : Json) :
    Settled (ofJson json) ↔ ¬HasCompoundThreshold json := by
  by_cases hsupported : Supported json
  · rw [ofJson_of_supported hsupported, settled_readKeys_iff]
    constructor
    · rintro h ⟨-, ⟨language, hlanguage⟩, hcompound⟩
      exact h language hlanguage hcompound
    · intro h language hlanguage hcompound
      exact h ⟨hsupported, ⟨language, hlanguage⟩, hcompound⟩
  · obtain ⟨problem, hrefused⟩ := ofJson_of_not_supported hsupported
    rw [hrefused]
    exact iff_of_true (.refused problem) (fun h => hsupported h.supported)

/-! ## Files -/

/-- No number of a text is too long, and a value that can be read has no compound threshold. -/
structure IsPlain (cs : List Char) : Prop where
  digits : ∀ count line, Json.read cs ≠ .error ⟨.tooManyDigits count, line⟩
  threshold : ∀ json, Json.read cs = .ok json → ¬HasCompoundThreshold json

theorem isPlain_of_read {cs : List Char} {json : Json} (h : Json.read cs = .ok json) :
    IsPlain cs ↔ ¬HasCompoundThreshold json := by
  constructor
  · intro hplain
    exact hplain.threshold json h
  · intro hjson
    refine ⟨fun count line => by simp [h], ?_⟩
    rintro other hother
    cases h.symm.trans hother
    exact hjson

theorem isPlain_of_read_error {cs : List Char} {error : Json.ReadError}
    (h : Json.read cs = .error error) :
    IsPlain cs ↔ ∀ count, error.problem ≠ .tooManyDigits count := by
  obtain ⟨problem, line⟩ := error
  constructor
  · rintro hplain count rfl
    exact hplain.digits count line h
  · intro hproblem
    refine ⟨?_, fun json => by simp [h]⟩
    intro count otherLine hother
    cases h.symm.trans hother
    exact hproblem count rfl

theorem settled_load_iff (tree : FileTree) (directory : List String) (path : PathName) :
    Settled (load tree directory path) ↔
      path.hasNull = false ∧ ∀ bytes, tree.bytes directory path = .ok bytes →
        ∃ cs, bytes = Text.encodeUtf8 cs ∧ IsPlain (Text.unifyLineEnds cs) := by
  simp only [← Text.decodeUtf8_eq_ok_iff]
  unfold load FileTree.text
  cases path.hasNull with
  | true => exact iff_of_false (fun h => nomatch h) (fun h => nomatch h.1)
  | false =>
    simp only [Bool.false_eq_true, if_false, true_and]
    cases tree.bytes directory path with
    | error problem => exact iff_of_true (.refused _) (fun _ h => nomatch h)
    | ok bytes =>
      cases hdecoded : Text.decodeUtf8 bytes with
      | error error =>
        simp only [hdecoded]
        refine iff_of_false (fun h => nomatch h) ?_
        intro h
        obtain ⟨cs, hcs, -⟩ := h bytes rfl
        cases hdecoded.symm.trans hcs
      | ok cs =>
        simp only [Except.ok.injEq, forall_eq', hdecoded, exists_eq_left']
        cases hread : Json.read (Text.unifyLineEnds cs) with
        | ok json =>
          rw [isPlain_of_read hread]
          exact settled_ofJson_iff json
        | error error =>
          rw [isPlain_of_read_error hread]
          dsimp only
          split
          · rename_i count hcount
            exact iff_of_false (fun h => nomatch h) (fun h => h count hcount)
          · rename_i hproblem
            exact iff_of_true (.refused _) hproblem

/-- Reading settings from a value ends as it should except for a compound threshold. Reading them
from a file does so when the path has no null character and the bytes of the file, if there is one,
encode a text with no such threshold and no number that is too long; and only a run of too many
digits in the text makes a number too long. -/
theorem settled_unless_compound_or_unreadable (json : Json) (tree : FileTree)
    (directory : List String) (path : PathName) :
    (Settled (ofJson json) ↔ ¬HasCompoundThreshold json) ∧
      (Settled (load tree directory path) ↔
        path.hasNull = false ∧ ∀ bytes, tree.bytes directory path = .ok bytes →
          ∃ cs, bytes = Text.encodeUtf8 cs ∧ IsPlain (Text.unifyLineEnds cs)) ∧
      ∀ cs count line, Json.read cs = .error ⟨.tooManyDigits count, line⟩ →
        Json.HasLongRun count cs := by
  refine ⟨settled_ofJson_iff json, settled_load_iff tree directory path, ?_⟩
  intro cs count line hread
  exact Json.hasLongRun_of_read hread

/-- A threshold that is a number, a file that ends early and a file that is not there. -/
theorem settled_unfinished_and_missing :
    let json : Json :=
      .obj [("format", .str "jsdocx-config"), ("version", .int 0), ("log_level", .int 7)]
    let tree : FileTree := ⟨[(["c.json"], .file [0x7B])]⟩
    Settled (ofJson json) ∧ Settled (load tree [] ⟨"", ["c.json"]⟩) ∧
      Settled (load tree [] ⟨"", ["d.json"]⟩) := by
  intro json tree
  obtain ⟨hvalue, hunfinished, -⟩ :=
    settled_unless_compound_or_unreadable json tree [] ⟨"", ["c.json"]⟩
  obtain ⟨-, hmissing, -⟩ := settled_unless_compound_or_unreadable json tree [] ⟨"", ["d.json"]⟩
  refine ⟨hvalue.2 ?_, hunfinished.2 ⟨by decide, ?_⟩, hmissing.2 ⟨by decide, ?_⟩⟩
  · rintro ⟨-, -, value, hfound, hcompound⟩
    cases hfound
    cases hcompound
  · intro bytes hbytes
    have hthere : tree.bytes [] ⟨"", ["c.json"]⟩ = .ok [0x7B] := by decide +kernel
    cases hthere.symm.trans hbytes
    have hread : Json.read (Text.unifyLineEnds ['\x7b']) = .error ⟨.expectedKey, 1⟩ := by rfl
    refine ⟨['\x7b'], rfl, (isPlain_of_read_error hread).2 ?_⟩
    intro count hcount
    cases hcount
  · intro bytes hbytes
    have hnone : tree.bytes [] ⟨"", ["d.json"]⟩ = .error .missing := by decide +kernel
    cases hnone.symm.trans hbytes

/-- A list of labels is no threshold, and a byte that no character has is no text. -/
theorem not_settled_list_of_labels :
    ¬Settled (ofJson (.obj [("format", .str "jsdocx-config"), ("version", .int 0),
        ("log_level", .arr [.str "info"])])) ∧
      ¬Settled (load ⟨[(["c.json"], .file [0xFF])]⟩ [] ⟨"", ["c.json"]⟩) := by
  constructor
  · rw [settled_ofJson_iff, not_not]
    exact ⟨⟨⟨_, rfl⟩, rfl, _, rfl, .int⟩, ⟨.python, .inl ⟨.inl rfl, rfl⟩⟩, _, rfl, .list⟩
  · rw [settled_load_iff]
    rintro ⟨-, h⟩
    obtain ⟨cs, hcs, -⟩ := h [0xFF] (by decide +kernel)
    rw [← Text.decodeUtf8_eq_ok_iff] at hcs
    cases hcs

end Config

end DocSignature
