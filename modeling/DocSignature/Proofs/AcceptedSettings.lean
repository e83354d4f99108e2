import DocSignature.Config
import DocSignature.Proofs.LanguageName
import DocSignature.Proofs.LatestSetup

/-!
# Which settings are accepted

Every key of the settings is checked on its own: the format and its version have to be there, and
every other key may be left out, be null or hold what it is for. Where a key may hold a text or an
object, anything empty is as good as none. Accepted settings say what the value says, and of several
spellings of one language in the type maps the last one counts.
-/

namespace DocSignature

/-! ## Values -/

namespace Json

/-- The values that equal zero. -/
inductive IsZero : Json → Prop where
  | int : IsZero (.int 0)
  | real {x : Number.Binary64} (h : x.isZero = true) : IsZero (.real x)
  | false : IsZero (.bool false)

/-- The values that are as good as none. -/
inductive IsVoid : Json → Prop where
  | null : IsVoid .null
  | zero {value : Json} (h : value.IsZero) : IsVoid value
  | text : IsVoid (.str "")
  | list : IsVoid (.arr [])
  | object : IsVoid (.obj [])

theorem isVoid_iff (value : Json) : value.isFalsy = true ↔ value.IsVoid := by
  constructor
  · intro h
    cases value with
    | null => exact .null
    | bool b =>
      cases b with
      | false => exact .zero .false
      | true => cases h
    | int n =>
      cases eq_of_beq h
      exact .zero .int
    | real x => exact .zero (.real h)
    | str s =>
      cases String.isEmpty_iff.1 h
      exact .text
    | arr items =>
      cases List.isEmpty_iff.1 h
      exact .list
    | obj fields =>
      cases List.isEmpty_iff.1 h
      exact .object
  · intro h
    cases h with
    | zero h =>
      cases h with
      | int => rfl
      | real h => exact h
      | false => rfl
    | null | text | list | object => rfl

/-- Nothing, or null, stands under a key. -/
def Silent (key : String) (json : Json) : Prop :=
  json.get? key = none ∨ json.get? key = some .null

/-- Nothing, or a value that is as good as none, stands under a key. -/
def Missing (key : String) (json : Json) : Prop :=
  ∀ value, json.get? key = some value → value.IsVoid

/-- A type map as a value. -/
def ofTypeMap (map : TypeMap) : Json :=
  .obj (map.map fun entry => (entry.1, ofText entry.2))

end Json

namespace Config

theorem isVersionZero_iff (value : Json) : isVersionZero value = true ↔ value.IsZero := by
  constructor
  · intro h
    cases value with
    | bool b =>
      cases b with
      | false => exact .false
      | true => cases h
    | int n =>
      cases of_decide_eq_true h
      exact .int
    | real x => exact .real h
    | null | str | arr | obj => cases h
  · intro h
    cases h with
    | real h => exact h
    | int | false => rfl

/-! ## Key by key -/

/-- The value is an object that names the format and its version. -/
structure Supported (json : Json) : Prop where
  object : ∃ fields, json = .obj fields
  format : json.get? "format" = some (.str format)
  version : ∃ value, json.get? "version" = some value ∧ value.IsZero

/-- The language that a value sets. -/
def SetsLanguage (json : Json) (language : Language) : Prop :=
  json.Silent "language" ∧ language = .python ∨
    ∃ text, json.get? "language" = some (.str text) ∧ language.NamedBy text

/-- The threshold that a value sets. -/
def SetsThreshold (json : Json) (threshold : Log.Threshold) : Prop :=
  json.Missing "log_level" ∧ threshold = .quiet ∨
    json.get? "log_level" = some (.str threshold.label)

/-- The count that a value sets under a key. -/
def SetsCount (key : String) (json : Json) (count : Option Int) : Prop :=
  json.Silent key ∧ count = none ∨
    ∃ n, json.get? key = some (.int n) ∧ 1 ≤ n ∧ count = some n

/-- An entry of the type maps: a key that names a language, and texts or nulls by their names. -/
def IsTypeMapField (field : String × Json) : Prop :=
  (∃ language : Language, language.NamedBy field.1) ∧ ∃ map, field.2 = .ofTypeMap map

/-- The fields of the type maps. -/
def typeMapFields (json : Json) : List (String × Json) :=
  match json.get? "type_map" with
  | some (.obj fields) => fields
  | _ => []

/-- The value under the last key that names a language. -/
def lastNamed? (language : Language) (fields : List (String × Json)) : Option Json :=
  (fields.reverse.find? fun field => language.NamedBy field.1).map (·.2)

theorem mapError_eq_ok_iff {ε ε' α : Type} {x : Except ε α} {f : ε → ε'} {a : α} :
    x.mapError f = .ok a ↔ x = .ok a := by
  cases x <;> simp [Except.mapError]

theorem supported_iff (json : Json) :
    Supported json ↔ (∃ fields, json = .obj fields) ∧ isSupported json = true := by
  constructor
  · rintro ⟨hobject, hformat, value, hversion, hzero⟩
    refine ⟨hobject, ?_⟩
    simp [isSupported, hformat, hversion, (isVersionZero_iff value).2 hzero]
  · rintro ⟨hobject, hsupported⟩
    rw [isSupported, Bool.and_eq_true] at hsupported
    obtain ⟨hformat, hversion⟩ := hsupported
    refine ⟨hobject, ?_, ?_⟩
    · split at hformat
      · rename_i text hfound
        rw [hfound, of_decide_eq_true hformat]
      · cases hformat
    · split at hversion
      · rename_i value hfound
        exact ⟨value, hfound, (isVersionZero_iff value).1 hversion⟩
      · cases hversion

theorem languageOf_eq_ok_iff (json : Json) (language : Language) :
    languageOf json = .ok language ↔ SetsLanguage json language := by
  unfold languageOf SetsLanguage Json.Silent
  split
  · rename_i hfound
    simp [hfound, eq_comm]
  · rename_i hfound
    simp [hfound, eq_comm]
  · rename_i value hnull hfound
    rw [mapError_eq_ok_iff, Language.ofText_eq_ok_iff, hfound]
    by_cases htext : ∃ text, value = .str text
    · obtain ⟨text, rfl⟩ := htext
      simp [Json.display]
    · have hno := Json.not_namedBy_display (fun text h => htext ⟨text, h⟩) language
      constructor
      · intro h
        exact absurd h hno
      · rintro (⟨h | h, -⟩ | ⟨text, h, -⟩)
        · cases h
        · exact absurd (Option.some.inj h) hnull
        · exact absurd ⟨text, Option.some.inj h⟩ htext

theorem thresholdOf_eq_ok_iff (json : Json) (threshold : Log.Threshold) :
    thresholdOf json = .ok threshold ↔ SetsThreshold json threshold := by
  unfold thresholdOf SetsThreshold Json.Missing
  cases hfound : json.get? "log_level" with
  | none => simp [eq_comm]
  | some value =>
    by_cases hvoid : value.IsVoid
    · have hlabel : value ≠ .str threshold.label := by
        rintro rfl
        have hfalsy := (Json.isVoid_iff _).2 hvoid
        cases threshold <;> exact absurd hfalsy (by decide)
      simp [(Json.isVoid_iff value).2 hvoid, hvoid, hlabel, eq_comm]
    · have hfalsy : ¬value.isFalsy = true := fun h => hvoid ((Json.isVoid_iff value).1 h)
      cases value with
      | str label =>
        simp only [hfalsy, hvoid, Bool.false_eq_true, if_false, Option.some.injEq, forall_eq',
          false_and, false_or, Json.str.injEq, ← Log.Threshold.ofLabel?_eq_some_iff]
        cases Log.Threshold.ofLabel? label <;> simp
      | null | bool | int | real | arr | obj => simp [hfalsy, hvoid]

theorem positiveOf_eq_ok_iff (key : String) (json : Json) (count : Option Int) :
    positiveOf key json = .ok count ↔ SetsCount key json count := by
  unfold positiveOf SetsCount Json.Silent
  split
  · rename_i hfound
    simp [hfound, eq_comm]
  · rename_i hfound
    simp [hfound, eq_comm]
  · rename_i n hfound
    by_cases hn : n < 1
    · have hsmall : ¬1 ≤ n := by omega
      simp [hfound, hn, hsmall]
    · have hpositive : 1 ≤ n := by omega
      simp [hfound, hn, hpositive, eq_comm]
  · rename_i value hnull hint hfound
    rw [hfound]
    constructor
    · intro h
      cases h
    · rintro (⟨h | h, -⟩ | ⟨n, h, -⟩)
      · cases h
      · exact absurd (Option.some.inj h) hnull
      · exact absurd (Option.some.inj h) (hint n)

theorem entriesOf_cons_eq_ok_iff (name key : String) (value : Json) (fields : List (String × Json))
    (map : TypeMap) :
    entriesOf name ((key, value) :: fields) = .ok map ↔
      ∃ target rest, value = .ofText target ∧ entriesOf name fields = .ok rest ∧
        map = (key, target) :: rest := by
  have hrest (target : Option String) :
      (entriesOf name fields).map ((key, target) :: ·) = .ok map ↔
        ∃ rest, entriesOf name fields = .ok rest ∧ map = (key, target) :: rest := by
    cases entriesOf name fields <;> simp [Except.map, eq_comm]
  have htext : ∀ target, value = .ofText target ↔
      value = .null ∧ target = none ∨ ∃ text, value = .str text ∧ target = some text := by
    intro target
    cases target <;> simp [Json.ofText]
  cases value with
  | null => simp [entriesOf, hrest, htext]
  | str text => simp [entriesOf, hrest, htext]
  | bool | int | real | arr | obj => simp [entriesOf, htext]

/-- The entries of a type map are read as they stand. -/
theorem entriesOf_eq_ok_iff (name : String) (fields : List (String × Json)) (map : TypeMap) :
    entriesOf name fields = .ok map ↔ Json.obj fields = .ofTypeMap map := by
  rw [Json.ofTypeMap, Json.obj.injEq]
  induction fields generalizing map with
  | nil => cases map <;> simp [entriesOf]
  | cons field fields ih =>
    obtain ⟨key, value⟩ := field
    rw [entriesOf_cons_eq_ok_iff]
    constructor
    · rintro ⟨target, rest, rfl, hrest, rfl⟩
      rw [List.map_cons, (ih rest).1 hrest]
    · intro h
      cases map with
      | nil => cases h
      | cons entry rest =>
        obtain ⟨hfield, hrest⟩ := List.cons.inj h
        cases hfield
        exact ⟨entry.2, rest, rfl, (ih rest).2 hrest, rfl⟩

/-! ## Type maps -/

theorem namedBy_inj {language other : Language} {text : String} (h : language.NamedBy text)
    (hother : other.NamedBy text) : language = other := by
  rw [← Language.ofText?_eq_some_iff] at h hother
  exact Option.some.inj (h.symm.trans hother)

theorem find?_setTypeMap (language other : Language) (map : TypeMap)
    (maps : List (Language × TypeMap)) :
    (setTypeMap language map maps).find? (fun m => m.1 = other) =
      if language = other then some (language, map) else maps.find? fun m => m.1 = other := by
  rw [setTypeMap, List.find?_append]
  by_cases hsame : language = other
  · subst hsame
    have hnone : (maps.filter fun m => m.1 ≠ language).find? (fun m => m.1 = language) = none := by
      rw [List.find?_eq_none]
      intro m hm
      simpa using (List.mem_filter.1 hm).2
    rw [hnone]
    simp
  · have hkept : (maps.filter fun m => m.1 ≠ language).find? (fun m => m.1 = other) =
        maps.find? fun m => m.1 = other := by
      rw [List.find?_filter]
      congr 1
      funext m
      by_cases hm : m.1 = other
      · simp [hm, Ne.symm hsame]
      · simp [hm]
    rw [hkept]
    simp [hsame]

theorem nodup_setTypeMap {maps : List (Language × TypeMap)} (h : (maps.map (·.1)).Nodup)
    (language : Language) (map : TypeMap) :
    ((setTypeMap language map maps).map (·.1)).Nodup := by
  rw [setTypeMap, List.map_append, List.nodup_append]
  refine ⟨h.sublist (List.filter_sublist.map _), by simp, ?_⟩
  intro kept hkept last hlast
  obtain ⟨m, hm, rfl⟩ := List.mem_map.1 hkept
  obtain rfl : last = language := List.mem_singleton.1 hlast
  simpa using (List.mem_filter.1 hm).2

theorem lastNamed?_cons (language : Language) (field : String × Json)
    (fields : List (String × Json)) :
    lastNamed? language (field :: fields) =
      (lastNamed? language fields).or
        (if language.NamedBy field.1 then some field.2 else none) := by
  rw [lastNamed?, List.reverse_cons, List.find?_append, Option.map_or, lastNamed?]
  by_cases h : language.NamedBy field.1 <;> simp [h]

theorem readTypeMaps_cons_eq_ok_iff (maps result : List (Language × TypeMap)) (name : String)
    (value : Json) (fields : List (String × Json)) :
    readTypeMaps maps ((name, value) :: fields) = .ok result ↔
      ∃ language map, language.NamedBy name ∧ value = .ofTypeMap map ∧
        readTypeMaps (setTypeMap language map maps) fields = .ok result := by
  simp only [readTypeMaps, ← Language.ofText_eq_ok_iff]
  cases Language.ofText name with
  | error e => simp
  | ok language =>
    cases value with
    | obj entries =>
      simp only [← entriesOf_eq_ok_iff name]
      cases entriesOf name entries <;> simp
    | null | bool | int | real | str | arr => simp [Json.ofTypeMap]

/-- Type maps are accepted when each of them is one. -/
theorem exists_readTypeMaps_iff (maps : List (Language × TypeMap)) (fields : List (String × Json)) :
    (∃ result, readTypeMaps maps fields = .ok result) ↔ ∀ field ∈ fields, IsTypeMapField field := by
  induction fields generalizing maps with
  | nil => simp [readTypeMaps]
  | cons field fields ih =>
    obtain ⟨name, value⟩ := field
    simp only [readTypeMaps_cons_eq_ok_iff, List.forall_mem_cons]
    constructor
    · rintro ⟨result, language, map, hnamed, hvalue, hrest⟩
      exact ⟨⟨⟨language, hnamed⟩, map, hvalue⟩, (ih _).1 ⟨result, hrest⟩⟩
    · rintro ⟨⟨⟨language, hnamed⟩, map, hvalue⟩, hrest⟩
      obtain ⟨result, hresult⟩ := (ih (setTypeMap language map maps)).2 hrest
      exact ⟨result, language, map, hnamed, hvalue, hresult⟩

/-- Reading type maps on top of others replaces those whose languages are named, each by the last
one of its language. -/
theorem find?_readTypeMaps {maps result : List (Language × TypeMap)}
    {fields : List (String × Json)} (h : readTypeMaps maps fields = .ok result)
    (language : Language) :
    (result.find? fun m => m.1 = language).map (Json.ofTypeMap ·.2) =
      (lastNamed? language fields).or
        ((maps.find? fun m => m.1 = language).map (Json.ofTypeMap ·.2)) := by
  induction fields generalizing maps with
  | nil =>
    cases h
    rfl
  | cons field fields ih =>
    obtain ⟨name, value⟩ := field
    obtain ⟨named, map, hnamed, rfl, hrest⟩ := (readTypeMaps_cons_eq_ok_iff ..).1 h
    rw [ih hrest, lastNamed?_cons, find?_setTypeMap, Option.or_assoc]
    by_cases hsame : named = language
    · subst hsame
      simp [hnamed]
    · have hother : ¬language.NamedBy name := fun h => hsame (namedBy_inj hnamed h)
      simp [hsame, hother]

theorem nodup_readTypeMaps {maps result : List (Language × TypeMap)}
    {fields : List (String × Json)} (h : readTypeMaps maps fields = .ok result)
    (hmaps : (maps.map (·.1)).Nodup) : (result.map (·.1)).Nodup := by
  induction fields generalizing maps with
  | nil =>
    cases h
    exact hmaps
  | cons field fields ih =>
    obtain ⟨language, map, -, -, hrest⟩ := (readTypeMaps_cons_eq_ok_iff ..).1 h
    exact ih hrest (nodup_setTypeMap hmaps language map)

theorem typeMapsOf_eq_ok_iff (json : Json) (maps : List (Language × TypeMap)) :
    typeMapsOf json = .ok maps ↔
      json.Missing "type_map" ∧ maps = [] ∨
        ∃ fields, json.get? "type_map" = some (.obj fields) ∧
          readTypeMaps [] fields = .ok maps := by
  unfold typeMapsOf Json.Missing
  cases hfound : json.get? "type_map" with
  | none => simp [eq_comm]
  | some value =>
    by_cases hfalsy : value.isFalsy = true
    · -- of the values that are as good as none only the empty object has fields, and it has none
      have hempty : ∀ fields, value = .obj fields → fields = [] := by
        rintro fields rfl
        exact List.isEmpty_iff.1 hfalsy
      have hvoid := (Json.isVoid_iff value).1 hfalsy
      simp only [hfalsy, if_true, Except.ok.injEq, Option.some.injEq, forall_eq', hvoid, true_and]
      constructor
      · rintro rfl
        exact .inl rfl
      · rintro (rfl | ⟨fields, hfields, hread⟩)
        · rfl
        · cases hempty fields hfields
          exact Except.ok.inj hread
    · have hvoid : ¬value.IsVoid := fun h => hfalsy ((Json.isVoid_iff value).2 h)
      cases value with
      | obj fields => simp [hfalsy, hvoid]
      | null | bool | int | real | str | arr => simp [hfalsy, hvoid]

theorem readTypeMaps_typeMapFields {json : Json} {maps : List (Language × TypeMap)}
    (h : typeMapsOf json = .ok maps) : readTypeMaps [] (typeMapFields json) = .ok maps := by
  rcases (typeMapsOf_eq_ok_iff json maps).1 h with ⟨hmissing, rfl⟩ | ⟨fields, hfound, hread⟩
  · unfold typeMapFields
    split
    · rename_i fields hfound
      rw [List.isEmpty_iff.1 ((Json.isVoid_iff _).2 (hmissing _ hfound))]
      rfl
    · rfl
  · rwa [typeMapFields, hfound]

theorem find?_of_mem {maps : List (Language × TypeMap)} (h : (maps.map (·.1)).Nodup)
    {m : Language × TypeMap} (hm : m ∈ maps) :
    maps.find? (fun other => other.1 = m.1) = some m := by
  induction maps with
  | nil => cases hm
  | cons first maps ih =>
    obtain ⟨hfirst, hrest⟩ := List.nodup_cons.1 h
    rcases List.mem_cons.1 hm with rfl | hm
    · simp
    · have hne : first.1 ≠ m.1 := fun heq => hfirst (List.mem_map.2 ⟨m, hm, heq.symm⟩)
      rw [List.find?_cons_of_neg (by simpa using hne), ih hrest hm]

/-! ## All settings -/

theorem ofJson_of_supported {json : Json} (h : Supported json) : ofJson json = readKeys json := by
  obtain ⟨⟨fields, rfl⟩, hsupported⟩ := (supported_iff json).1 h
  simp [ofJson, hsupported]

theorem ofJson_of_not_supported {json : Json} (h : ¬Supported json) :
    ∃ problem, ofJson json = .error (.refused problem) := by
  rw [supported_iff] at h
  cases json with
  | obj fields =>
    have hsupported : isSupported (.obj fields) = false := by
      simpa using fun hyes => h ⟨⟨fields, rfl⟩, hyes⟩
    exact ⟨.unsupported, by simp [ofJson, hsupported]; rfl⟩
  | null | bool | int | real | str | arr => exact ⟨.notAnObject, rfl⟩

theorem bind_eq_ok_iff {ε α β : Type} {x : Except ε α} {f : α → Except ε β} {b : β} :
    (x >>= f) = .ok b ↔ ∃ a, x = .ok a ∧ f a = .ok b := by
  cases x <;> simp [bind, Except.bind]

/-- Settings are read key by key. -/
theorem readKeys_eq_ok_iff (json : Json) (c : Config) :
    readKeys json = .ok c ↔
      languageOf json = .ok c.language ∧ thresholdOf json = .ok c.threshold ∧
        typeMapsOf json = .ok c.typeMaps ∧ positiveOf "max_workers" json = .ok c.maxWorkers ∧
        ∃ count, positiveOf "batch_size" json = .ok count ∧
          c.batchSize = count.getD Batch.defaultSize := by
  simp only [readKeys, bind_eq_ok_iff, mapError_eq_ok_iff, pure, Except.pure, Except.ok.injEq]
  constructor
  · rintro ⟨language, hlanguage, threshold, hthreshold, maps, hmaps, workers, hworkers, size, hsize,
      rfl⟩
    exact ⟨hlanguage, hthreshold, hmaps, hworkers, size, hsize, rfl⟩
  · rintro ⟨hlanguage, hthreshold, hmaps, hworkers, size, hsize, hdefault⟩
    refine ⟨_, hlanguage, _, hthreshold, _, hmaps, _, hworkers, size, hsize, ?_⟩
    rw [← hdefault]

/-- What a value has to hold for its settings to be accepted. -/
structure Acceptable (json : Json) : Prop where
  supported : Supported json
  language : ∃ language, SetsLanguage json language
  threshold : ∃ threshold, SetsThreshold json threshold
  typeMaps : json.Missing "type_map" ∨
    ∃ fields, json.get? "type_map" = some (.obj fields) ∧ ∀ field ∈ fields, IsTypeMapField field
  maxWorkers : ∃ count, SetsCount "max_workers" json count
  batchSize : ∃ count, SetsCount "batch_size" json count

/-- Settings that say what a value says, and are within their bounds. -/
structure Faithful (json : Json) (c : Config) : Prop where
  language : SetsLanguage json c.language
  threshold : SetsThreshold json c.threshold
  maxWorkers : SetsCount "max_workers" json c.maxWorkers
  batchSize : ∃ count, SetsCount "batch_size" json count ∧
    c.batchSize = count.getD Batch.defaultSize
  workers_pos : ∀ n ∈ c.maxWorkers, 1 ≤ n
  batchSize_pos : 1 ≤ c.batchSize
  languages_nodup : (c.typeMaps.map (·.1)).Nodup
  typeMaps : ∀ m ∈ c.typeMaps, lastNamed? m.1 (typeMapFields json) = some (.ofTypeMap m.2)
  typeMapFor : ∀ language, Json.ofTypeMap (c.typeMapFor language) =
    (lastNamed? language (typeMapFields json)).getD (.obj [])

theorem SetsCount.pos {key : String} {json : Json} {count : Option Int}
    (h : SetsCount key json count) : ∀ n ∈ count, 1 ≤ n := by
  rcases h with ⟨-, rfl⟩ | ⟨n, -, hpos, rfl⟩
  · intro n hn
    cases hn
  · intro m hm
    cases hm
    exact hpos

theorem faithful_of_readKeys {json : Json} {c : Config} (h : readKeys json = .ok c) :
    Faithful json c := by
  obtain ⟨hlanguage, hthreshold, hmaps, hworkers, count, hcount, hsize⟩ :=
    (readKeys_eq_ok_iff json c).1 h
  have hread := readTypeMaps_typeMapFields hmaps
  have hnodup := nodup_readTypeMaps hread List.nodup_nil
  have hfound := find?_readTypeMaps hread
  simp only [List.find?_nil, Option.map_none, Option.or_none] at hfound
  rw [positiveOf_eq_ok_iff] at hworkers hcount
  refine
    { language := (languageOf_eq_ok_iff json _).1 hlanguage
      threshold := (thresholdOf_eq_ok_iff json _).1 hthreshold
      maxWorkers := hworkers
      batchSize := ⟨count, hcount, hsize⟩
      workers_pos := hworkers.pos
      batchSize_pos := ?_
      languages_nodup := hnodup
      typeMaps := ?_
      typeMapFor := ?_ }
  · rw [hsize]
    cases count with
    | none => decide
    | some n => exact hcount.pos n rfl
  · intro m hm
    rw [← hfound, find?_of_mem hnodup hm]
    rfl
  · intro language
    rw [← hfound, typeMapFor]
    cases c.typeMaps.find? fun m => m.1 = language <;> rfl

theorem exists_readKeys_iff {json : Json} (hsupported : Supported json) :
    (∃ c, readKeys json = .ok c) ↔ Acceptable json := by
  simp only [readKeys_eq_ok_iff, languageOf_eq_ok_iff, thresholdOf_eq_ok_iff, positiveOf_eq_ok_iff,
    typeMapsOf_eq_ok_iff]
  constructor
  · rintro ⟨c, hlanguage, hthreshold, hmaps, hworkers, count, hcount, -⟩
    refine ⟨hsupported, ⟨_, hlanguage⟩, ⟨_, hthreshold⟩, ?_, ⟨_, hworkers⟩, ⟨_, hcount⟩⟩
    rcases hmaps with ⟨hmissing, -⟩ | ⟨fields, hfound, hread⟩
    · exact .inl hmissing
    · exact .inr ⟨fields, hfound, (exists_readTypeMaps_iff [] fields).1 ⟨_, hread⟩⟩
  · rintro ⟨-, ⟨language, hlanguage⟩, ⟨threshold, hthreshold⟩, hmaps, ⟨workers, hworkers⟩,
      ⟨count, hcount⟩⟩
    have hread : ∃ maps : List (Language × TypeMap), json.Missing "type_map" ∧ maps = [] ∨
        ∃ fields, json.get? "type_map" = some (.obj fields) ∧
          readTypeMaps [] fields = .ok maps := by
      rcases hmaps with hmissing | ⟨fields, hfound, hfields⟩
      · exact ⟨[], .inl ⟨hmissing, rfl⟩⟩
      · obtain ⟨maps, hmaps⟩ := (exists_readTypeMaps_iff [] fields).2 hfields
        exact ⟨maps, .inr ⟨fields, hfound, hmaps⟩⟩
    obtain ⟨maps, hmaps⟩ := hread
    exact ⟨⟨language, workers, count.getD Batch.defaultSize, threshold, maps⟩, hlanguage,
      hthreshold, hmaps, hworkers, count, hcount, rfl⟩

/-- Settings are accepted exactly when every key holds what it may hold, and accepted settings say
what the keys say: the type map of a language is the one under the last key that names it. -/
theorem ofJson_accepts_exactly (json : Json) :
    ((∃ c, ofJson json = .ok c) ↔ Acceptable json) ∧
      ∀ c, ofJson json = .ok c → Faithful json c := by
  by_cases hsupported : Supported json
  · rw [ofJson_of_supported hsupported]
    exact ⟨exists_readKeys_iff hsupported, fun c => faithful_of_readKeys⟩
  · obtain ⟨problem, hrefused⟩ := ofJson_of_not_supported hsupported
    rw [hrefused]
    refine ⟨⟨?_, ?_⟩, ?_⟩
    · rintro ⟨c, hc⟩
      cases hc
    · intro h
      exact absurd h.supported hsupported
    · intro c hc
      cases hc

/-- Settings with a version of `false`, an empty list for a threshold and three spellings of Go. -/
theorem ofJson_accepts_three_spellings :
    let symbols : Json := .obj [("Symbol", .null)]
    let json : Json := .obj [("format", .str "jsdocx-config"), ("version", .bool false),
      ("language", .str "Java"), ("log_level", .arr []), ("max_workers", .int 3),
      ("type_map", .obj [("go", .obj [("A", .str "B")]), ("GO", .obj []), ("java", .obj []),
        ("Go", symbols)])]
    ∃ c, ofJson json = .ok c ∧ Faithful json c ∧ Json.ofTypeMap (c.typeMapFor .go) = symbols := by
  intro symbols json
  have hok : (ofJson json).isOk = true := by decide +kernel
  have hnamed : Language.go.NamedBy "Go" := by decide +kernel
  cases hread : ofJson json with
  | error failure =>
    rw [hread] at hok
    cases hok
  | ok c =>
    have hfaithful := (ofJson_accepts_exactly json).2 c hread
    refine ⟨c, rfl, hfaithful, ?_⟩
    rw [hfaithful.typeMapFor .go]
    simp [json, typeMapFields, lastNamed?, Json.get?, Dictionary.get?, hnamed]

end Config

end DocSignature
